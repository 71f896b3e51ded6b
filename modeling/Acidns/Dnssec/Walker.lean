import Acidns.Dnssec.Nsec3
import Acidns.Wire.Message

/-!
# The denial checks of the validator

`validator/walker.go`: what the chain walker requires of the authority section before it takes a name as
denied (`validateNSECNXDomain`) or an answer as expanded from a wildcard (`validateWildcardNextCloser`), with
the verification of the records in the section. `dnssec.Verify` of one set, one signature and one key is a
parameter, and so are SHA-1 and the clock.
-/

namespace Acidns

variable {tries : Nat} {lastErr : Option VerifyError} {sig : RRSIG}

/-- `dnssec.KeyTag`. -/
def keyTagSum : Bytes → (even : Bool) → (sum : UInt32) → UInt32
  | [], _, sum => sum
  | b :: rd, true, sum => keyTagSum rd false (sum + UInt32.ofNat (b.toNat * 256))
  | b :: rd, false, sum => keyTagSum rd true (sum + UInt32.ofNat b.toNat)

def dnskeyWire (k : DNSKEY) : Bytes :=
  Octets.bigEndian 2 k.flags.toNat ++ [k.protocol, k.algorithm] ++ k.pubkey

/-- The checksum of a key (RFC 4034). -/
def keyTag (k : DNSKEY) : UInt16 :=
  let sum := keyTagSum (dnskeyWire k) true 0
  UInt16.ofNat ((sum + ((sum >>> 16) &&& 0xffff)) &&& 0xffff).toNat

/-! ### Signatures in time -/

/-- Serial arithmetic (RFC 1982). -/
def serialLT (a b : UInt32) : Bool := (a - b).toNat ≥ 2 ^ 31

/-- The clock, widened by the skew, is within the validity. -/
def rrsigValidNowWithSkew (sig : RRSIG) (now : Int) (skew : Duration) : Bool :=
  let skew := if skew < 0 then -skew else skew
  let skew := if skew > 24 * 3600 * second then 24 * 3600 * second else skew
  let nowU := UInt32.ofInt (now / second)
  let skewU := UInt32.ofInt (skew / second)
  if serialLT (nowU + skewU) sig.sigInc then false
  else if serialLT sig.sigExp (nowU - skewU) then false
  else true

theorem serialLT_iff {a b : UInt32} {i j : Int} (ha : a = UInt32.ofInt i) (hb : b = UInt32.ofInt j)
    (hnear : -2 ^ 31 ≤ i - j ∧ i - j < 2 ^ 31) : serialLT a b = true ↔ i < j := by
  rw [serialLT, decide_eq_true_iff, UInt32.toNat_sub, ha, hb]
  simp only [UInt32.ofInt, UInt32.toNat_ofNat']
  omega

/-- **Serial arithmetic of the validity window.** The fields are instants reduced modulo `2 ^ 32`; within
`2 ^ 31` seconds less a day of the clock the answer is that of the instants themselves, wherever the wrap is.
The clock is cut to whole seconds, the skew counts in full. -/
theorem rrsigValidNowWithSkew_iff {inc exp now skew : Int}
    (hinc : sig.sigInc = UInt32.ofInt inc) (hexp : sig.sigExp = UInt32.ofInt exp)
    (hskew : 0 ≤ skew ∧ skew ≤ 86400 * second) (hsince : (now / second - inc).natAbs < 2 ^ 31 - 86400)
    (huntil : (now / second - exp).natAbs < 2 ^ 31 - 86400) :
    rrsigValidNowWithSkew sig now skew = true ↔
      inc * second - skew ≤ now / second * second ∧ now / second * second ≤ exp * second + skew := by
  obtain ⟨t, ht⟩ : ∃ t, now / second = t := ⟨_, rfl⟩
  obtain ⟨secs, hsecs⟩ : ∃ secs, skew / second = secs := ⟨_, rfl⟩
  have hmax : skew ≤ 86400 * 1000000000 := hskew.2
  have hday : 0 ≤ secs ∧ secs ≤ 86400 ∧ secs * 1000000000 ≤ skew ∧ skew < (secs + 1) * 1000000000 := by
    simp only [second] at hsecs
    omega
  rw [ht] at hsince huntil ⊢
  have hbefore := @serialLT_iff (UInt32.ofInt t + UInt32.ofInt secs) _ (t + secs) inc
    (UInt32.ofInt_add _ _).symm hinc (by omega)
  have hafter := @serialLT_iff _ (UInt32.ofInt t - UInt32.ofInt secs) exp (t - secs) hexp
    (by rw [UInt32.sub_eq_add_neg, ← UInt32.ofInt_neg, ← UInt32.ofInt_add]; rfl) (by omega)
  have hpositive : ¬skew < 0 := by omega
  have hclamp : ¬skew > 24 * 3600 * second := by simp only [second]; omega
  have hguards : ∀ a b : Bool, (if a then false else if b then false else true) = true ↔ ¬a = true ∧ ¬b = true := by
    decide
  simp only [rrsigValidNowWithSkew, if_neg hpositive, if_neg hclamp, ht, hsecs]
  rw [hguards, hbefore, hafter, second]
  omega

theorem rrsigValidNowWithSkew_straddling :
    let sig : RRSIG := ⟨1, 8, 1, 0, UInt32.ofInt (2 ^ 32 + 10), UInt32.ofInt (2 ^ 32 - 10), 0, Name.root, []⟩
    rrsigValidNowWithSkew sig ((2 ^ 32 + 70) * second) (60 * second) = true ∧
      ¬rrsigValidNowWithSkew sig ((2 ^ 32 + 71) * second) (60 * second) = true :=
  ⟨(rrsigValidNowWithSkew_iff rfl rfl (by decide) (by decide) (by decide)).mpr (by decide),
    (rrsigValidNowWithSkew_iff rfl rfl (by decide) (by decide) (by decide)).not.mpr (by decide)⟩

/-! ### Records of a section -/

def asRRSIG (r : Record) : Option RRSIG :=
  match r.rd with
  | .rrsig sig => some sig
  | _ => none

def asNSEC (r : Record) : Option NSEC :=
  match r.rd with
  | .nsec nsec => some nsec
  | _ => none

def extractRRSIGs (records : List Record) : List RRSIG := records.filterMap asRRSIG

def rrsigsForTypeAndOwner (sigs : List RRSIG) (t : RRType) (_owner : Name) : List RRSIG :=
  sigs.filter fun s => s.typeCovered = t

def allNSEC (records : List Record) : List Record := records.filter fun r => r.type = .nsec

def recordsOfType3 (records : List Record) : List Record := records.filter fun r => r.type = .nsec3

def addToGroup (r : Record) : List (List Record) → List (List Record)
  | [] => [[r]]
  | set :: out =>
    if set.head?.map (fun r => r.name.text) = some r.name.text then (set ++ [r]) :: out
    else set :: addToGroup r out

/-- The records in sets of one owner, in order of appearance. -/
def groupRecordsByOwner (records : List Record) : List (List Record) :=
  records.foldl (fun out r => addToGroup r out) []

/-! ### Verification -/

/-- The errors of `dnssec.Verify` are left to it. -/
inductive VerifyError where
  | emptyRRset
  | outsideWindow
  | iterationLimit
  | noKey
  | rejected (text : String)
  deriving DecidableEq

/-- What the denial checks need: a signature check, a hash and the clock. -/
structure Walker where
  verify : List Record → RRSIG → DNSKEY → Except String Unit
  sha1 : Bytes → Bytes
  now : Int
  skew : Duration
  maxRRSIGsTry : Nat

inductive KeySearch where
  | going (tries : Nat) (lastErr : Option VerifyError)
  | done (result : Except VerifyError Unit)

namespace Walker

/-- The keys for one signature, in order. -/
def tryKeys (w : Walker) (set : List Record) (sig : RRSIG) :
    List DNSKEY → (tries : Nat) → (lastErr : Option VerifyError) → KeySearch
  | [], tries, lastErr => .going tries lastErr
  | key :: keys, tries, lastErr =>
    if keyTag key ≠ sig.keyTag ∨ key.algorithm ≠ sig.algorithm then tryKeys w set sig keys tries lastErr
    else if tries + 1 > w.maxRRSIGsTry then .done (.error (lastErr.getD .iterationLimit))
    else
      match w.verify set sig key with
      | .ok () => .done (.ok ())
      | .error text => tryKeys w set sig keys (tries + 1) (some (.rejected text))

def trySigs (w : Walker) (set : List Record) (keys : List DNSKEY) :
    List RRSIG → (tries : Nat) → (lastErr : Option VerifyError) → Except VerifyError Unit
  | [], _, lastErr => .error (lastErr.getD .noKey)
  | sig :: sigs, tries, lastErr =>
    if !rrsigValidNowWithSkew sig w.now w.skew then trySigs w set keys sigs tries (some .outsideWindow)
    else
      match w.tryKeys set sig keys tries lastErr with
      | .done result => result
      | .going tries lastErr =>
        if tries > w.maxRRSIGsTry then .error (lastErr.getD .noKey) else trySigs w set keys sigs tries lastErr

/-- Some signature verifies, within the bound on attempts. -/
def verifyRRsetWithKeys (w : Walker) (set : List Record) (sigs : List RRSIG) (keys : List DNSKEY) :
    Except VerifyError Unit :=
  if set.length = 0 then .error .emptyRRset else w.trySigs set keys sigs 0 none

/-! ### The two checks -/

inductive DenialError where
  | noNSEC
  | noNSECOrNSEC3
  /-- `NSEC at %s lacks RRSIG`, also for NSEC3. -/
  | lacksRRSIG (owner : Name)
  /-- `NSEC rrsig at %s: %w`, also for NSEC3. -/
  | rrsig (owner : Name) (cause : VerifyError)
  | notCovered (qname : Name)
  | wildcardName (encloser : Name) (cause : WireError)
  | wildcardExists (wildcard : Name)
  | wildcardNotCovered (wildcard encloser : Name)
  | inconsistentParams
  | encloserDeeper (encloserLabels numLabels : Nat)
  | nextCloserNotCovered (nextCloser : Name)
  | optOut
  deriving DecidableEq

/-- Each group of records of the type `t` must be signed; `authority` is where the signatures are found. -/
def verifyGroups (w : Walker) (t : RRType) (authority : List Record) (keys : List DNSKEY) :
    List (List Record) → Except DenialError Unit
  | [] => .ok ()
  | set :: groups =>
    let owner := (set.head?.map Record.name).getD .zero
    let sigs := rrsigsForTypeAndOwner (extractRRSIGs authority) t owner
    if sigs.length = 0 then .error (.lacksRRSIG owner)
    else
      match w.verifyRRsetWithKeys set sigs keys with
      | .error cause => .error (.rrsig owner cause)
      | .ok () => verifyGroups w t authority keys groups

def verifyNSEC3Set (w : Walker) (nsec3RRs authority : List Record) (keys : List DNSKEY) : Except DenialError Unit :=
  w.verifyGroups .nsec3 authority keys (groupRecordsByOwner nsec3RRs)

/-- Owner and next of an NSEC that covers the name. -/
def coveringNext (qname : Name) (r : Record) : Option (Name × Name) :=
  match asNSEC r with
  | none => none
  | some nsec => if nameCoveredBy qname r.name nsec.next then some (r.name, nsec.next) else none

/-- Some NSEC covers the wildcard. -/
def denyWildcard (wildcard encloser : Name) : List Record → Except DenialError Unit
  | [] => .error (.wildcardNotCovered wildcard encloser)
  | r :: nsecRRs =>
    match asNSEC r with
    | none => denyWildcard wildcard encloser nsecRRs
    | some nsec =>
      if r.name.equal wildcard then .error (.wildcardExists wildcard)
      else if nameCoveredBy wildcard r.name nsec.next then .ok ()
      else denyWildcard wildcard encloser nsecRRs

/-- Every NSEC set is verified before any is used. -/
def validateNSECNXDomain (w : Walker) (qname : Name) (parentKeys : List DNSKEY) (msg : Message) : Except DenialError Unit :=
  let nsecRRs := allNSEC msg.authorities
  if nsecRRs.length = 0 then .error .noNSEC
  else
    match w.verifyGroups .nsec msg.authorities parentKeys (groupRecordsByOwner nsecRRs) with
    | .error e => .error e
    | .ok () =>
      match nsecRRs.findSome? (coveringNext qname) with
      | none => .error (.notCovered qname)
      | some (coverOwner, coverNext) =>
        let encloser := deeperAncestor qname coverOwner coverNext
        match wildcardOf encloser with
        | .error cause => .error (.wildcardName encloser cause)
        | .ok wildcard => denyWildcard wildcard encloser nsecRRs

def synthStep (qname : Name) (found : Option Nat) (sig : RRSIG) : Option Nat :=
  if sig.labels.toNat < qname.numLabels then
    match found with
    | none => some sig.labels.toNat
    | some encloserLabels => if sig.labels.toNat < encloserLabels then some sig.labels.toNat else some encloserLabels
  else found

/-- The labels of the wildcard that was expanded. -/
def wildcardSynthLabels (qname : Name) (sigs : List RRSIG) : Option Nat := sigs.foldl (synthStep qname) none

def validateWildcardNextCloser (w : Walker) (qname : Name) (encloserLabels : Nat) (parentKeys : List DNSKEY)
    (msg : Message) : Except DenialError Unit :=
  let nsecRRs := allNSEC msg.authorities
  let nsec3RRs := recordsOfType3 msg.authorities
  if nsecRRs.length = 0 ∧ nsec3RRs.length = 0 then .error .noNSECOrNSEC3
  else if nsecRRs.length > 0 then
    match w.verifyGroups .nsec msg.authorities parentKeys (groupRecordsByOwner nsecRRs) with
    | .error e => .error e
    | .ok () => if (nsecRRs.findSome? (coveringNext qname)).isSome then .ok () else .error (.notCovered qname)
  else
    match w.verifyNSEC3Set nsec3RRs msg.authorities parentKeys with
    | .error e => .error e
    | .ok () =>
      match extractNSEC3Params nsec3RRs with
      | none => .error .inconsistentParams
      | some params =>
        if encloserLabels + 1 > qname.numLabels then .error (.encloserDeeper encloserLabels qname.numLabels)
        else
          let nextCloser := truncateNameTo qname (encloserLabels + 1)
          match nsec3Cover w.sha1 nextCloser params nsec3RRs with
          | none => .error (.nextCloserNotCovered nextCloser)
          | some nc => if nc.flags &&& nsec3FlagOptOut ≠ 0 then .error .optOut else .ok ()

/-- What `Resolve` requires of a positive answer once its signatures `sigs` are verified. -/
def validateExpansion (w : Walker) (qname : Name) (sigs : List RRSIG) (parentKeys : List DNSKEY) (msg : Message) :
    Except DenialError Unit :=
  match wildcardSynthLabels qname sigs with
  | none => .ok ()
  | some encloserLabels => w.validateWildcardNextCloser qname encloserLabels parentKeys msg

theorem isSome_synthStep_of_lt {qname : Name} {found : Option Nat}
    (h : sig.labels.toNat < qname.numLabels) : (synthStep qname found sig).isSome := by
  unfold synthStep
  rw [if_pos h]
  split
  · rfl
  · split <;> rfl

theorem isSome_synthStep_of_isSome {qname : Name} {found : Option Nat} (h : found.isSome) :
    (synthStep qname found sig).isSome := by
  by_cases hlt : sig.labels.toNat < qname.numLabels
  · exact isSome_synthStep_of_lt hlt
  · unfold synthStep
    rwa [if_neg hlt]

/-! ### What the checks have seen -/

variable {w : Walker} {set : List Record} {sigs : List RRSIG} {keys : List DNSKEY} {t : RRType} {authority : List Record}

/-- One of the signatures verifies the set. -/
def VerifiedBy (w : Walker) (sigs : List RRSIG) (keys : List DNSKEY) (set : List Record) : Prop :=
  ∃ sig ∈ sigs, rrsigValidNowWithSkew sig w.now w.skew = true ∧ ∃ key ∈ keys, w.verify set sig key = .ok ()

def Verified (w : Walker) (keys : List DNSKEY) (set : List Record) : Prop :=
  ∃ sig, ∃ key ∈ keys, w.verify set sig key = .ok ()

theorem VerifiedBy.verified (h : w.VerifiedBy sigs keys set) : w.Verified keys set := by
  obtain ⟨sig, -, -, hkey⟩ := h
  exact ⟨sig, hkey⟩

theorem VerifiedBy.mono {sigs' : List RRSIG} (hsub : sigs ⊆ sigs') (h : w.VerifiedBy sigs keys set) :
    w.VerifiedBy sigs' keys set := by
  obtain ⟨sig, hsig, hrest⟩ := h
  exact ⟨sig, hsub hsig, hrest⟩

theorem exists_of_tryKeys (h : w.tryKeys set sig keys tries lastErr = .done (.ok ())) :
    ∃ key ∈ keys, w.verify set sig key = .ok () := by
  induction keys generalizing tries lastErr with
  | nil => cases h
  | cons key keys ih => grind [tryKeys]

theorem verifiedBy_of_trySigs (h : w.trySigs set keys sigs tries lastErr = .ok ()) : w.VerifiedBy sigs keys set := by
  induction sigs generalizing tries lastErr with
  | nil => cases h
  | cons sig sigs ih =>
    rw [trySigs] at h
    split at h
    · exact (ih h).mono (List.subset_cons_self _ _)
    · next hvalid =>
      split at h
      · next hdone =>
        subst h
        exact ⟨sig, List.mem_cons_self, by simpa using hvalid, exists_of_tryKeys hdone⟩
      · split at h
        · cases h
        · exact (ih h).mono (List.subset_cons_self _ _)

theorem verifiedBy_of_verifyRRsetWithKeys (h : w.verifyRRsetWithKeys set sigs keys = .ok ()) :
    w.VerifiedBy sigs keys set := by
  unfold verifyRRsetWithKeys at h
  split at h
  · cases h
  · exact verifiedBy_of_trySigs h

/-! ### What passes the checks -/

def keyMatches (sig : RRSIG) (key : DNSKEY) : Bool := keyTag key = sig.keyTag && key.algorithm = sig.algorithm

def Signed (w : Walker) (sigs : List RRSIG) (keys : List DNSKEY) (set : List Record) : Prop :=
  ∃ sig ∈ sigs, rrsigValidNowWithSkew sig w.now w.skew = true ∧
    ∃ key ∈ keys, keyMatches sig key = true ∧ w.verify set sig key = .ok ()

/-- The key tries that the signatures can cost. -/
def attempts (w : Walker) (sigs : List RRSIG) (keys : List DNSKEY) : Nat :=
  (sigs.map fun sig => if rrsigValidNowWithSkew sig w.now w.skew then keys.countP (keyMatches sig) else 0).sum

theorem tryKeys_spec {sig : RRSIG} {tries : Nat} {lastErr : Option VerifyError}
    (h : tries + keys.countP (keyMatches sig) ≤ w.maxRRSIGsTry) :
    w.tryKeys set sig keys tries lastErr = .done (.ok ()) ∨
      (∃ lastErr', w.tryKeys set sig keys tries lastErr = .going (tries + keys.countP (keyMatches sig)) lastErr') ∧
        ∀ key ∈ keys, keyMatches sig key = true → w.verify set sig key ≠ .ok () := by
  induction keys generalizing tries lastErr with
  | nil => exact .inr ⟨⟨lastErr, rfl⟩, List.forall_mem_nil _⟩
  | cons key keys ih =>
    rw [tryKeys]
    have hmatches : (keyTag key ≠ sig.keyTag ∨ key.algorithm ≠ sig.algorithm) ↔ ¬keyMatches sig key = true := by
      simp [keyMatches, imp_iff_not_or]
    rw [if_congr hmatches rfl rfl]
    by_cases hkey : keyMatches sig key = true
    · rw [List.countP_cons_of_pos hkey] at h ⊢
      rw [if_neg (not_not_intro hkey), if_neg (by omega)]
      cases hverify : w.verify set sig key with
      | ok u => exact .inl rfl
      | error text => grind
    · grind [List.countP_cons_of_neg]

theorem attempts_cons (sig : RRSIG) (sigs : List RRSIG) : w.attempts (sig :: sigs) keys =
    (if rrsigValidNowWithSkew sig w.now w.skew then keys.countP (keyMatches sig) else 0) + w.attempts sigs keys := rfl

theorem trySigs_of_signed (h : tries + w.attempts sigs keys ≤ w.maxRRSIGsTry) (hsigned : w.Signed sigs keys set) :
    w.trySigs set keys sigs tries lastErr = .ok () := by
  induction sigs generalizing tries lastErr with
  | nil =>
    obtain ⟨sig, hsig, -⟩ := hsigned
    cases hsig
  | cons sig sigs ih =>
    obtain ⟨sig', hsig', htime, key, hkey, hmatches, hverify⟩ := hsigned
    rw [attempts_cons] at h
    rw [trySigs]
    by_cases hvalid : rrsigValidNowWithSkew sig w.now w.skew = true
    · rw [if_pos hvalid] at h
      rw [if_neg (by rw [hvalid]; decide)]
      rcases @tryKeys_spec w set keys sig tries lastErr (by omega) with hdone | ⟨⟨e, hgoing⟩, hnone⟩
      · rw [hdone]
      · rw [hgoing]
        dsimp only
        rw [if_neg (by omega)]
        refine ih (by omega) ⟨sig', ?_, htime, key, hkey, hmatches, hverify⟩
        rcases List.mem_cons.mp hsig' with rfl | hsig'
        · exact absurd hverify (hnone key hkey hmatches)
        · exact hsig'
    · rw [if_neg hvalid] at h
      rw [if_pos (by simpa using hvalid)]
      refine ih (by omega) ⟨sig', ?_, htime, key, hkey, hmatches, hverify⟩
      rcases List.mem_cons.mp hsig' with rfl | hsig'
      · exact absurd htime hvalid
      · exact hsig'

theorem verifyRRsetWithKeys_of_signed (hset : set ≠ []) (h : w.attempts sigs keys ≤ w.maxRRSIGsTry)
    (hsigned : w.Signed sigs keys set) : w.verifyRRsetWithKeys set sigs keys = .ok () := by
  grind [verifyRRsetWithKeys, trySigs_of_signed]

theorem verified_of_verifyGroups {groups : List (List Record)}
    (h : w.verifyGroups t authority keys groups = .ok ()) : ∀ set ∈ groups, w.Verified keys set := by
  induction groups with
  | nil => exact List.forall_mem_nil _
  | cons set groups ih =>
    rw [verifyGroups] at h
    split at h
    · cases h
    · split at h
      · cases h
      · next hset => exact List.forall_mem_cons.mpr ⟨(verifiedBy_of_verifyRRsetWithKeys hset).verified, ih h⟩

end Walker

/-! ### Groups -/

def ownedBy (records : List Record) (n : Name) : List Record := records.filter fun r => r.name = n

theorem ownedBy_concat (records : List Record) (r : Record) (n : Name) :
    ownedBy (records ++ [r]) n = ownedBy records n ++ if r.name = n then [r] else [] := by
  by_cases h : r.name = n <;> simp [ownedBy, h]

variable {records : List Record}

theorem head?_ownedBy {n : Name} (h : ownedBy records n ≠ []) :
    (ownedBy records n).head?.map (fun r => r.name.text) = some n.text := by
  obtain ⟨r, rs, heq⟩ := List.exists_cons_of_ne_nil h
  have hr : r ∈ ownedBy records n := heq ▸ List.mem_cons_self
  have hname : r.name = n := by simpa using (List.mem_filter.mp hr).2
  rw [heq, ← hname]
  rfl

theorem addToGroup_map {owners : List Name} (r : Record) (hnodup : owners.Nodup)
    (hne : ∀ n ∈ owners, ownedBy records n ≠ []) : addToGroup r (owners.map (ownedBy records)) =
      owners.map (ownedBy (records ++ [r])) ++ if r.name ∈ owners then [] else [[r]] := by
  induction owners with
  | nil => rfl
  | cons n owners ih =>
    obtain ⟨hnot, hnodup⟩ := List.nodup_cons.mp hnodup
    obtain ⟨hn, hne⟩ := List.forall_mem_cons.mp hne
    rw [List.map_cons, addToGroup, head?_ownedBy hn, List.map_cons, ownedBy_concat]
    by_cases hr : r.name = n
    · grind [List.map_congr_left, ownedBy_concat]
    · grind [Name.text_injective]

theorem groupRecordsByOwner_eq (records : List Record) : ∃ owners : List Name, owners.Nodup ∧
    (∀ n, n ∈ owners ↔ ∃ r ∈ records, r.name = n) ∧ groupRecordsByOwner records = owners.map (ownedBy records) := by
  induction records using List.reverseRecOn with
  | nil => exact ⟨[], List.nodup_nil, by simp, rfl⟩
  | append_singleton records r ih =>
    obtain ⟨owners, hnodup, hmem, heq⟩ := ih
    have hne : ∀ n ∈ owners, ownedBy records n ≠ [] := by
      intro n hn
      obtain ⟨r', hr', hname⟩ := (hmem n).mp hn
      exact List.ne_nil_of_mem (List.mem_filter.mpr ⟨hr', decide_eq_true hname⟩)
    have hgroup : groupRecordsByOwner (records ++ [r]) = addToGroup r (groupRecordsByOwner records) :=
      List.foldl_concat _ _ _ _
    rw [hgroup, heq, addToGroup_map r hnodup hne]
    by_cases hr : r.name ∈ owners
    · refine ⟨owners, hnodup, ?_, by rw [if_pos hr, List.append_nil]⟩
      intro n
      grind
    · refine ⟨owners ++ [r.name], by grind, by grind, ?_⟩
      have hnone : ownedBy records r.name = [] := by
        refine List.filter_eq_nil_iff.mpr fun r' hr' => ?_
        intro hname
        exact hr ((hmem _).mpr ⟨r', hr', by simpa using hname⟩)
      rw [if_neg hr, List.map_append, List.map_singleton, ownedBy_concat, hnone, if_pos rfl, List.nil_append]

theorem mem_groupRecordsByOwner {r : Record} (h : r ∈ records) :
    ∃ set ∈ groupRecordsByOwner records, r ∈ set := by
  obtain ⟨owners, -, hmem, heq⟩ := groupRecordsByOwner_eq records
  rw [heq]
  exact ⟨_, List.mem_map_of_mem ((hmem r.name).mpr ⟨r, h, rfl⟩), List.mem_filter.mpr ⟨h, decide_eq_true rfl⟩⟩

namespace Walker

variable {w : Walker} {keys : List DNSKEY} {t : RRType} {authority records : List Record}

def sectionSigs (t : RRType) (authority : List Record) : List RRSIG :=
  (extractRRSIGs authority).filter fun s => s.typeCovered = t

theorem rrsigsForTypeAndOwner_eq_sectionSigs (owner : Name) :
    rrsigsForTypeAndOwner (extractRRSIGs authority) t owner = sectionSigs t authority := rfl

/-- The records of each owner are signed in the section, and the limit allows to try all its signatures. -/
structure SignedSection (w : Walker) (t : RRType) (keys : List DNSKEY) (authority records : List Record) : Prop where
  signed : ∀ n, ownedBy records n ≠ [] → w.Signed (sectionSigs t authority) keys (ownedBy records n)
  within : w.attempts (sectionSigs t authority) keys ≤ w.maxRRSIGsTry

theorem SignedSection.verifyRRsetWithKeys (h : w.SignedSection t keys authority records) {n : Name}
    (hn : ownedBy records n ≠ []) :
    sectionSigs t authority ≠ [] ∧ w.verifyRRsetWithKeys (ownedBy records n) (sectionSigs t authority) keys = .ok () := by
  grind [verifyRRsetWithKeys_of_signed, within, signed, verifyRRsetWithKeys, trySigs]

theorem verifyGroups_of_forall {groups : List (List Record)}
    (h : ∀ set ∈ groups, sectionSigs t authority ≠ [] ∧
      w.verifyRRsetWithKeys set (sectionSigs t authority) keys = .ok ()) :
    w.verifyGroups t authority keys groups = .ok () := by
  induction groups with
  | nil => rfl
  | cons set groups ih =>
    obtain ⟨⟨hsigs, hverify⟩, hrest⟩ := List.forall_mem_cons.mp h
    have hlength : ¬(sectionSigs t authority).length = 0 := mt List.length_eq_zero_iff.mp hsigs
    simp only [Walker.verifyGroups, rrsigsForTypeAndOwner_eq_sectionSigs, if_neg hlength, hverify]
    exact ih hrest

theorem SignedSection.verifyGroups (h : w.SignedSection t keys authority records) :
    w.verifyGroups t authority keys (groupRecordsByOwner records) = .ok () := by
  obtain ⟨owners, -, hmem, heq⟩ := groupRecordsByOwner_eq records
  rw [heq]
  apply verifyGroups_of_forall
  intro set hset
  obtain ⟨n, hn, rfl⟩ := List.mem_map.mp hset
  obtain ⟨r, hr, hname⟩ := (hmem n).mp hn
  exact h.verifyRRsetWithKeys (List.ne_nil_of_mem (List.mem_filter.mpr ⟨hr, decide_eq_true hname⟩))

end Walker

end Acidns
