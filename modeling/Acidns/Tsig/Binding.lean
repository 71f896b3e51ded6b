import Acidns.Tsig.Replay
import Acidns.Tsig.Walk

/-!
# What a MAC binds

The input of a MAC is a message followed by fields of the TSIG record, with nothing between them that
tells where the message ends but the message itself. Because a stripped message ends where its header
says, the input determines both parts: as far as the MAC determines its input, it determines the
message and the time of signing.

The converse does not hold for the MAC as it stands in a record. A record may carry a part of the MAC
only, so one message has as many valid MACs as there are lengths from the minimum to the full one.
-/

namespace Acidns.Tsig

open List

open Octets (bigEndian readAt writeAt)

section Input

variable {body body' other other' : Bytes} {keyName algName : Name} {priorMAC : Option Bytes} {time time' : Nat}
  {fudge fudge' err err' : UInt16} {timersOnly : Bool}

/-- What is signed behind the message. -/
def inputTail (keyName algName : Name) (timeSigned : Nat) (fudge errCode : UInt16) (other : Bytes)
    (timersOnly : Bool) : Bytes :=
  if timersOnly then bigEndian 6 timeSigned ++ bigEndian 2 fudge.toNat
  else buildTSIGVars keyName algName timeSigned fudge errCode other

theorem buildSigningInput_eq : buildSigningInput body keyName algName priorMAC time fudge err other timersOnly =
    (priorMAC.map macPrefix).getD [] ++ (body ++ inputTail keyName algName time fudge err other timersOnly) := by
  grind [buildSigningInput, inputTail]

theorem inputTail_time (htime : time < 256 ^ 6) (htime' : time' < 256 ^ 6)
    (h : inputTail keyName algName time fudge err other timersOnly =
      inputTail keyName algName time' fudge' err' other' timersOnly) : time = time' := by
  have hbytes : bigEndian 6 time = bigEndian 6 time' := by
    cases timersOnly with
    | true => exact (append_inj h (by simp)).1
    | false =>
      simp only [inputTail, Bool.false_eq_true, if_false, buildTSIGVars, append_assoc] at h
      replace h := append_cancel_left (append_cancel_left (append_cancel_left
        (append_cancel_left h)))
      exact (append_inj h (by simp)).1
  exact Octets.bigEndian_inj htime htime' hbytes

theorem buildSigningInput_inj (hbody : body ∈ bodyWords) (hbody' : body' ∈ bodyWords) (htime : time < 256 ^ 6)
    (htime' : time' < 256 ^ 6)
    (h : buildSigningInput body keyName algName priorMAC time fudge err other timersOnly =
      buildSigningInput body' keyName algName priorMAC time' fudge' err' other' timersOnly) :
    body = body' ∧ time = time' := by
  rw [buildSigningInput_eq, buildSigningInput_eq] at h
  obtain ⟨heq, htail⟩ := prefixFree_bodyWords.append_inj hbody hbody' (append_cancel_left h)
  exact ⟨heq, inputTail_time htime htime' htail⟩

end Input

/-! ### From the MAC to the message -/

section Binding

variable {hmac : Algorithm → Bytes → Bytes → Bytes} {key : Key} {msg msg' body body' mac mac' : Bytes}
  {priorMAC : Option Bytes} {timersOnly : Bool} {now now' fudge fudge' signed signed' : Int}
  {tsig tsig' : ParsedTSIG}

/-- The MAC in the record is as long as the one computed. -/
def FullLength (hmac : Algorithm → Bytes → Bytes → Bytes) (msg : Bytes) (key : Key) (priorMAC : Option Bytes)
    (timersOnly : Bool) : Prop :=
  ∀ stripped tsig, stripTSIG msg = .ok (stripped, tsig) → tsig.mac.length = (hmac key.algorithm key.secret
    (tsig.signingInput (writeAt 2 stripped 0 tsig.origID.toNat) priorMAC timersOnly)).length

section

variable (h : Authentic hmac msg key priorMAC timersOnly body tsig)

include h

theorem Authentic.mac_eq (hfull : FullLength hmac msg key priorMAC timersOnly) :
    tsig.mac = hmac key.algorithm key.secret (tsig.signingInput body priorMAC timersOnly) := by
  obtain ⟨stripped, hstrip, rfl⟩ := h.strip
  exact h.mac.eq_of_length (hfull stripped tsig hstrip)

theorem Authentic.mem_bodyWords : body ∈ bodyWords := by
  obtain ⟨stripped, hstrip, rfl⟩ := h.strip
  exact writeAt_mem_bodyWords hstrip _

theorem Authentic.timeSigned_lt :
    tsig.timeSigned < 256 ^ 6 := by
  obtain ⟨stripped, hstrip, -⟩ := h.strip
  exact (stripTSIG_eq_ok hstrip).2.1

theorem Authentic.eq_of_strip {stripped : Bytes} {tsig' : ParsedTSIG} (hstrip : stripTSIG msg = .ok (stripped, tsig')) :
    tsig = tsig' := by
  grind [strip]

end

/-! ### An update with another ID, and with a shorter MAC -/

def updateInput : Bytes :=
  buildSigningInput updateBody updateKey.name updateKey.algorithm.name none 300 300 0 [] false

def updateMAC : Bytes := updateHMAC .hmacSHA256 [0x73] updateInput

def updateTSIG : ParsedTSIG :=
  { keyName := updateKey.name, algorithm := updateKey.algorithm.name, timeSigned := 300, fudge := 300
    mac := updateMAC, origID := 7, errCode := 0, other := [] }

/-- The update with another ID in its header, as a forwarder sends it. -/
def forwardedUpdate : Bytes := [0x12, 0x34] ++ update.drop 2

/-- An injective function that gives the update its real MAC. -/
def injectiveHMAC : Algorithm → Bytes → Bytes → Bytes := fun _ _ payload =>
  if payload = updateInput then updateMAC else payload ++ List.replicate 33 0

theorem injective_injectiveHMAC (alg : Algorithm) (secret : Bytes) : Function.Injective (injectiveHMAC alg secret) := by
  have hlong : ∀ payload : Bytes, payload ++ List.replicate 33 0 ≠ updateMAC := by
    intro payload heq
    have hlen := congrArg List.length heq
    rw [length_append, show updateMAC.length = 32 by decide +kernel, length_replicate] at hlen
    omega
  intro payload payload' heq
  simp only [injectiveHMAC] at heq
  split at heq <;> split at heq
  · rename_i hleft hright
    rw [hleft, hright]
  · exact absurd heq.symm (hlong payload')
  · exact absurd heq (hlong payload)
  · exact append_cancel_right heq

/-- The update with half of its MAC. -/
def shortenedUpdate : Bytes :=
  writeAt 2 (appendTSIGRR updateBody updateKey.name
    (buildTSIGRData updateKey.algorithm.name 300 300 (updateMAC.take 16) 7 0 [])) 10 1

theorem stripTSIG_updates : stripTSIG update = .ok (updateBody, updateTSIG) ∧
    stripTSIG forwardedUpdate = .ok ([0x12, 0x34] ++ updateBody.drop 2, updateTSIG) ∧
    stripTSIG shortenedUpdate = .ok (updateBody, { updateTSIG with mac := updateMAC.take 16 }) := by
  decide +kernel

theorem fullLength_updates : FullLength injectiveHMAC update updateKey none false ∧
    FullLength injectiveHMAC forwardedUpdate updateKey none false := by
  constructor
  · intro stripped tsig hstrip
    cases stripTSIG_updates.1.symm.trans hstrip
    decide +kernel
  · intro stripped tsig hstrip
    cases stripTSIG_updates.2.1.symm.trans hstrip
    decide +kernel

theorem verifyMAC_updates : verifyMAC updateHMAC update updateKey (300 * second) updateFudge =
      .ok (updateBody, updateMAC, 300 * second) ∧
    verifyMAC updateHMAC shortenedUpdate updateKey (301 * second) updateFudge =
      .ok (updateBody, updateMAC.take 16, 300 * second) := by
  decide +kernel

/-! ### Messages with one MAC -/

/-- **Messages with one MAC.** If HMAC is injective under the secret, two messages accepted with the same full MAC have
the same body and time of signing. -/
theorem verifyWithPrefix_binds (hinj : Function.Injective (hmac key.algorithm key.secret))
    (h : verifyWithPrefix hmac msg key priorMAC timersOnly now fudge = .ok (body, mac, signed))
    (h' : verifyWithPrefix hmac msg' key priorMAC timersOnly now' fudge' = .ok (body', mac, signed'))
    (hfull : FullLength hmac msg key priorMAC timersOnly) (hfull' : FullLength hmac msg' key priorMAC timersOnly) :
    body = body' ∧ signed = signed' := by
  obtain ⟨tsig, hauth, rfl, rfl, -⟩ := verifyWithPrefix_eq_ok.mp h
  obtain ⟨tsig', hauth', hmac', rfl, -⟩ := verifyWithPrefix_eq_ok.mp h'
  have hinput : tsig.signingInput body priorMAC timersOnly = tsig'.signingInput body' priorMAC timersOnly := by
    apply hinj
    rw [← hauth.mac_eq hfull, ← hauth'.mac_eq hfull', hmac']
  simp only [ParsedTSIG.signingInput, hauth.keyName, hauth'.keyName, hauth.algorithm, hauth'.algorithm] at hinput
  obtain ⟨hbody, htime⟩ := buildSigningInput_inj hauth.mem_bodyWords hauth'.mem_bodyWords hauth.timeSigned_lt
    hauth'.timeSigned_lt hinput
  refine ⟨hbody, ?_⟩
  rw [ParsedTSIG.signed, ParsedTSIG.signed, htime]

theorem verifyWithPrefix_binds_forwarded : ∃ body body' signed signed',
    verifyWithPrefix injectiveHMAC update updateKey none false (300 * second) updateFudge =
      .ok (body, updateMAC, signed) ∧
    verifyWithPrefix injectiveHMAC forwardedUpdate updateKey none false (301 * second) updateFudge =
      .ok (body', updateMAC, signed') ∧ body = body' ∧ signed = signed' := by
  have hdirect : verifyWithPrefix injectiveHMAC update updateKey none false (300 * second) updateFudge =
      .ok (updateBody, updateMAC, 300 * second) := by decide +kernel
  have hforwarded : verifyWithPrefix injectiveHMAC forwardedUpdate updateKey none false (301 * second) updateFudge =
      .ok (updateBody, updateMAC, 300 * second) := by decide +kernel
  exact ⟨_, _, _, _, hdirect, hforwarded, verifyWithPrefix_binds (injective_injectiveHMAC _ _) hdirect hforwarded
    fullLength_updates.1 fullLength_updates.2⟩

/-! ### From the message to the MAC -/

/-- **Messages with several MACs.** Two accepted messages with the same body and fields are one to the replay cache
exactly if their MACs have the same length. -/
theorem replayTuple_eq_iff {stripped stripped' : Bytes}
    (h : verifyMAC hmac msg key now fudge = .ok (body, mac, signed))
    (h' : verifyMAC hmac msg' key now' fudge' = .ok (body, mac', signed))
    (hstrip : stripTSIG msg = .ok (stripped, tsig)) (hstrip' : stripTSIG msg' = .ok (stripped', tsig'))
    (hfudge : tsig.fudge = tsig'.fudge) (herr : tsig.errCode = tsig'.errCode) (hother : tsig.other = tsig'.other) :
    (key.name, signed, mac) = (key.name, signed, mac') ↔ tsig.mac.length = tsig'.mac.length := by
  obtain ⟨t, hauth, rfl, hsigned, -⟩ := verifyWithPrefix_eq_ok.mp h
  obtain ⟨t', hauth', rfl, hsigned', -⟩ := verifyWithPrefix_eq_ok.mp h'
  obtain rfl := hauth.eq_of_strip hstrip
  obtain rfl := hauth'.eq_of_strip hstrip'
  have htime : t.timeSigned = t'.timeSigned := by
    rw [← hsigned', ParsedTSIG.signed, ParsedTSIG.signed] at hsigned
    exact Int.ofNat_inj.mp (Int.eq_of_mul_eq_mul_right (by decide) hsigned)
  have hinput : t.signingInput body none false = t'.signingInput body none false := by
    simp only [ParsedTSIG.signingInput, hauth.keyName, hauth'.keyName, hauth.algorithm, hauth'.algorithm, htime,
      hfudge, herr, hother]
  constructor
  · intro heq
    rw [(Prod.mk.inj (Prod.mk.inj heq).2).2]
  · intro hlen
    -- both are the front of one MAC
    have hprefix := hauth'.mac
    rw [← hinput] at hprefix
    rw [prefix_iff_eq_take.mp hauth.mac, prefix_iff_eq_take.mp hprefix, hlen]

end Binding

theorem replayTuple_eq_iff_update :
    (updateKey.name, (300 * second : Int), updateMAC) = (updateKey.name, 300 * second, updateMAC.take 16) ↔
      updateMAC.length = (updateMAC.take 16).length :=
  replayTuple_eq_iff verifyMAC_updates.1 verifyMAC_updates.2 stripTSIG_updates.1 stripTSIG_updates.2.2 rfl rfl rfl

/-- **A shortened update is fresh.** It is accepted again after the second half of its MAC is cut off. -/
theorem shortenedUpdate_accepted :
    verifyMAC updateHMAC update updateKey (300 * second) updateFudge = .ok (updateBody, updateMAC, 300 * second) ∧
    verifyMAC updateHMAC shortenedUpdate updateKey (301 * second) updateFudge =
      .ok (updateBody, updateMAC.take 16, 300 * second) ∧
    (stripTSIG shortenedUpdate).toOption.map (fun p => (p.2.fudge, p.2.errCode, p.2.other)) =
      (stripTSIG update).toOption.map (fun p => (p.2.fudge, p.2.errCode, p.2.other)) ∧
    updateMAC.take 16 ≠ updateMAC ∧
    (verifyWithReplay updateHMAC shortenedUpdate updateKey
      (verifyWithReplay updateHMAC update updateKey (some (newMemoryReplayCache none none)) (300 * second)
        updateFudge).2 (301 * second) updateFudge).1 = .ok (updateBody, updateMAC.take 16, 300 * second) := by
  refine ⟨verifyMAC_updates.1, verifyMAC_updates.2, ?_, by decide +kernel⟩
  rw [stripTSIG_updates.2.2, stripTSIG_updates.1]
  rfl

end Acidns.Tsig
