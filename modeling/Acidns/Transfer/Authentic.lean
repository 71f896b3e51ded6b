import Acidns.Transfer.Closing
import Acidns.Tsig.Strip

/-!
# Who sent the records of a signed transfer

With a TSIG key the client signs its request and verifies the envelopes of the response. The MAC of
the first envelope covers the MAC of the request and the MAC of each later one covers the MAC before,
so that the envelopes form a chain. An attacker on the path can present any messages, but no MAC of
bytes that the key holder has not signed.

Envelopes behind the first need not be signed. Those that are not are covered by no MAC; a stream
whose envelopes are all signed delivers the records of the key holder, in order.
-/

namespace Acidns.Transfer

open List

open Program (Drains)
open Tsig (Key Algorithm Authentic macPrefix buildSigningInput minMACSize)
open Octets (bigEndian)

/-! ### Starting a signed transfer -/

def axfrQuery (id : UInt16) (zone : Name) : Message := ⟨id, 0, [newQuestion zone .axfr], [], [], [], none⟩

/-- The part of `Start` that signs the query; the clock is read twice. -/
def signQuery (hmac : Algorithm → Bytes → Bytes → Bytes) (key : Key) (now : Nat → Int) (fudge : Int) (q : Message) :
    Except TransferError (Message × Verifier) := do
  let signed ← (Tsig.signMessage hmac q key (now 0) fudge).mapError fun e => .setup ("TSIG sign: " ++ e.text)
  let (_, mac, _) ← (Tsig.verifyMAC hmac signed key (now 1) fudge).mapError fun e =>
    .setup ("TSIG extract MAC: " ++ e.text)
  let q ← (Message.unpack signed).mapError fun e => .setup ("re-parse signed query: " ++ e.message)
  pure (q, newTSIGVerifier hmac key mac (fun n => now (n + 2)) fudge)

/-- The reader of the response to the signed query `q`, which has a question. -/
def openStream (protocol : Protocol) (q : Message) (v : Verifier) (frames : List Bytes) (atEnd : ConnEnd) :
    RecReader :=
  newReader protocol (connStream q.id frames atEnd) (some v) q.id (q.questions.headD (newQuestion .root .axfr))

/-! ### The key holder -/

/-- The bytes spell the message, behind however many pointers its names stand. -/
def SpelledBy (m : Message) (buf : Bytes) : Prop := ∃ bound, ∀ maxHops ≥ bound, Message.unpackWith maxHops buf = .ok m

/-- An envelope with the bytes and times it was signed with. -/
structure SignedEnvelope where
  body : Bytes
  content : Message
  timeSigned : Nat
  fudge : UInt16
  spelled : SpelledBy content body

/-- The bytes that the MAC of an envelope covers, as `signWithPrefix` puts them together. -/
def SignedEnvelope.input (env : SignedEnvelope) (key : Key) (prior : Bytes) (timersOnly : Bool) : Bytes :=
  buildSigningInput env.body key.name key.algorithm.name (some prior) env.timeSigned env.fudge 0 [] timersOnly

/-- A MAC that a verifier takes for `mac`: the whole of it, or a part that is long enough. -/
def IsTag (key : Key) (mac tag : Bytes) : Prop := tag <+: mac ∧ minMACSize key.algorithm ≤ tag.length

section Holder

variable (hmac : Algorithm → Bytes → Bytes → Bytes) (key : Key) (signed : Bytes → Prop)

/-- The envelopes sent in this transfer, the first signed behind `prior`; all else ever signed begins otherwise than
with a MAC of this transfer. -/
def SentBehind : (timersOnly : Bool) → (prior : Bytes) → List SignedEnvelope → Prop
  | _, prior, [] => ∀ tag, IsTag key prior tag → ∀ input, signed input → ¬macPrefix tag <+: input
  | timersOnly, prior, env :: envs =>
    (∀ tag, IsTag key prior tag → ∀ input, signed input → macPrefix tag <+: input →
      input = env.input key prior timersOnly) ∧
    SentBehind true (hmac key.algorithm key.secret (env.input key prior timersOnly)) envs

def IsPrior (requestMAC : Bytes) (messages : List Message) (prior : Bytes) : Prop :=
  prior = requestMAC ∨ ∃ m ∈ messages, ∃ raw stripped tsig, m.pack = .ok raw ∧
    Tsig.stripTSIG raw = .ok (stripped, tsig) ∧ prior = tsig.mac

/-- None of the messages carries a MAC of bytes that the key holder has not signed. -/
def Unforgeable (requestMAC : Bytes) (messages : List Message) : Prop :=
  ∀ m ∈ messages, ∀ raw, m.pack = .ok raw → ∀ prior, IsPrior requestMAC messages prior →
    ∀ timersOnly body tsig, Authentic hmac raw key (some prior) timersOnly body tsig →
      signed (tsig.signingInput body (some prior) timersOnly)

end Holder

/-! ### What a verified envelope says -/

section Envelope

variable {hmac : Algorithm → Bytes → Bytes → Bytes} {key : Key} {m : Message} {raw body prior : Bytes}
  {tsig : Tsig.ParsedTSIG} {timersOnly : Bool} {env : SignedEnvelope}

theorem body_prefix_of_input (hkey : tsig.keyName = key.name) (halg : tsig.algorithm = key.algorithm.name)
    (h : tsig.signingInput body (some prior) timersOnly = env.input key prior timersOnly) : body <+: env.body := by
  simp only [Tsig.ParsedTSIG.signingInput, SignedEnvelope.input, buildSigningInput, Option.map_some,
    Option.getD_some, hkey, halg] at h
  -- the variables behind the message are no shorter for having other data
  have hcancel : ∀ {x y : Bytes}, y.length ≤ x.length →
      macPrefix prior ++ body ++ x = macPrefix prior ++ env.body ++ y → body <+: env.body := by
    grind [append_cancel_left, prefix_of_prefix_length_le]
  cases timersOnly with
  | true =>
    simp only [if_true, append_assoc (macPrefix prior ++ _)] at h
    exact hcancel (by simp) h
  | false =>
    refine hcancel ?_ h
    simp only [Tsig.buildTSIGVars, length_append, Octets.length_bigEndian, length_nil]
    omega

theorem le_foldr_max {ns : List Nat} {n : Nat} (h : n ∈ ns) : n ≤ ns.foldr max 0 := by
  induction ns with
  | nil => cases h
  | cons k ns ih =>
    rcases mem_cons.mp h with rfl | h
    · exact Nat.le_max_left _ _
    · exact (ih h).trans (Nat.le_max_right _ _)

theorem answers_of_authentic {frame : Bytes} (hm : Message.unpack frame = .ok m) (hpack : m.pack = .ok raw)
    (h : Authentic hmac raw key (some prior) timersOnly body tsig)
    (hinput : tsig.signingInput body (some prior) timersOnly = env.input key prior timersOnly) :
    m.answers = env.content.answers := by
  obtain ⟨hnormal, hsent⟩ := Message.normal_of_unpack hm
  obtain ⟨stripped, hstrip, rfl⟩ := h.strip
  obtain ⟨hedns, hrepack⟩ := Tsig.pack_of_stripTSIG hnormal hpack hstrip
  obtain ⟨m', hm'⟩ : ∃ m', m' = { m with id := tsig.origID, additionals := m.additionals.dropLast } := ⟨_, rfl⟩
  rw [← hm'] at hrepack
  have hnormal' : m'.Normal := by
    rw [hm']
    exact ⟨hnormal.questions, hnormal.answers, hnormal.authorities,
      fun r hr => hnormal.additionals r (dropLast_subset _ hr), hnormal.edns⟩
  obtain ⟨bound, hspelled⟩ := env.spelled
  have hread := Message.unpackWith_pack_append hnormal' (hm' ▸ hedns) hrepack
    (body_prefix_of_input h.keyName h.algorithm hinput)
    (fun hop hhop => (le_foldr_max hhop).trans (Nat.le_max_right bound (m'.hops.foldr max 0)))
  rw [hspelled _ (Nat.le_max_left _ _)] at hread
  rw [Except.ok.inj hread, hm']
  exact (congrArg Message.answers hsent).symm

end Envelope

/-! ### The chain of envelopes -/

section Chain

variable {v v' : Verifier} {m : Message} {messages all : List Message} {signed : Bytes → Prop}
  {requestMAC prior : Bytes} {sent : List SignedEnvelope}

theorem verify_of_signed (hsigned : messageHasTSIG m = true) (h : v.verify m = (.ok (), v')) :
    ∃ raw body tsig, m.pack = .ok raw ∧ Authentic v.hmac raw v.key (some v.priorMAC) (!v.first) body tsig ∧
      v'.hmac = v.hmac ∧ v'.key = v.key ∧ v'.priorMAC = tsig.mac ∧ v'.first = false := by
  have hchecked : ∃ check : Bytes → Int → Except Tsig.TsigError (Bytes × Bytes × Int),
      v.verifySigned m check = (.ok (), v') ∧ ∀ raw now body mac signed, check raw now = .ok (body, mac, signed) →
        Tsig.verifyWithPrefix v.hmac raw v.key (some v.priorMAC) (!v.first) now v.fudge = .ok (body, mac, signed) := by
    rw [Verifier.verify] at h
    by_cases hfirst : v.first = true
    · rw [if_pos hfirst, if_pos hsigned] at h
      refine ⟨_, h, fun raw now body mac signed hcheck => ?_⟩
      obtain ⟨_, -, hcheck⟩ := bind_ok hcheck
      simpa [hfirst] using hcheck
    · rw [if_neg hfirst, if_pos hsigned] at h
      refine ⟨_, h, fun raw now body mac signed hcheck => ?_⟩
      obtain ⟨_, -, hcheck⟩ := bind_ok hcheck
      simpa [hfirst] using hcheck
  obtain ⟨check, h, hcheck⟩ := hchecked
  rw [Verifier.verifySigned] at h
  split at h
  · cases h
  · rename_i raw hpack
    split at h
    · cases h
    · rename_i body mac time hok
      obtain ⟨tsig, hauthentic, rfl, -, -⟩ := Tsig.verifyWithPrefix_eq_ok.mp (hcheck _ _ _ _ _ hok)
      cases h
      exact ⟨raw, body, tsig, hpack, hauthentic, rfl, rfl, rfl, rfl⟩

theorem macPrefix_prefix_signingInput (tsig : Tsig.ParsedTSIG) (body prior : Bytes) (timersOnly : Bool) :
    macPrefix prior <+: tsig.signingInput body (some prior) timersOnly := by
  grind [Tsig.ParsedTSIG.signingInput, Tsig.buildSigningInput]

theorem eq_of_macPrefix {tag rest : Bytes} (htag : tag <+: prior) (hlen : prior.length < 2 ^ 16)
    (h : macPrefix tag <+: macPrefix prior ++ rest) : tag = prior := by
  have hle := htag.length_le
  have hword : bigEndian 2 tag.length = bigEndian 2 prior.length := by
    have htake := prefix_iff_eq_take.mp ((prefix_append (bigEndian 2 tag.length) tag).trans h)
    rw [Octets.length_bigEndian, macPrefix, append_assoc] at htake
    rw [htake, take_left' (Octets.length_bigEndian _ _)]
  have hnum := congrArg Octets.ofBigEndian hword
  rw [Octets.ofBigEndian_bigEndian, Octets.ofBigEndian_bigEndian, Nat.mod_eq_of_lt (by omega),
    Nat.mod_eq_of_lt (by omega)] at hnum
  exact htag.eq_of_length hnum

theorem input_eq_append (env : SignedEnvelope) (key : Key) (prior : Bytes) (timersOnly : Bool) :
    ∃ rest, env.input key prior timersOnly = macPrefix prior ++ rest := by
  cases timersOnly with
  | true => exact ⟨_, by simp [SignedEnvelope.input, buildSigningInput]; rfl⟩
  | false => exact ⟨_, by simp [SignedEnvelope.input, buildSigningInput]; rfl⟩

theorem verify_of_examine {wantID : UInt16} {wantQ : Question} {u : Unit} {next : Option Verifier}
    (h : examine wantID wantQ (some v) m = (.ok u, next)) : ∃ v', v.verify m = (.ok (), v') ∧ next = some v' := by
  rw [examine.eq_def] at h
  split at h
  · cases h
  · cases ‹some v = none›
  · rename_i v₁ _ heq
    cases heq
    obtain ⟨hok, rfl⟩ := Prod.mk.inj h
    exact ⟨_, Prod.ext hok rfl, rfl⟩

/-- **The chain holds.** From signed envelopes, a reader gets the records of the key holder in order. -/
theorem accepted_prefix {protocol : Protocol} {closed : TransferError} {wantID : UInt16} {wantQ : Question}
    (hsize : ∀ payload, (v.hmac v.key.algorithm v.key.secret payload).length = Tsig.macSize v.key.algorithm)
    (hsub : ∀ m ∈ messages, m ∈ all) (hunpack : ∀ m ∈ all, ∃ frame, Message.unpack frame = .ok m)
    (hsigned : ∀ m ∈ messages, messageHasTSIG m = true) (hunforgeable : Unforgeable v.hmac v.key signed requestMAC all)
    (hprior : IsPrior requestMAC all v.priorMAC) (htag : IsTag v.key prior v.priorMAC) (hlen : prior.length < 2 ^ 16)
    (hsent : SentBehind v.hmac v.key signed (!v.first) prior sent) :
    (accepted protocol closed wantID wantQ messages (some v)).1 <+: sent.flatMap fun env => env.content.answers := by
  induction messages generalizing v prior sent with
  | nil => exact nil_prefix
  | cons m ms ih =>
    obtain ⟨hm, hms⟩ := forall_mem_cons.mp hsigned
    obtain ⟨hmem, hsub⟩ := forall_mem_cons.mp hsub
    rw [accepted]
    rcases hexamine : examine wantID wantQ (some v) m with ⟨e | u, next⟩
    · exact nil_prefix
    · obtain ⟨v', hverify, rfl⟩ := verify_of_examine hexamine
      obtain ⟨raw, body, tsig, hpack, hauthentic, hhmac, hkey, hmac', hfirst⟩ := verify_of_signed hm hverify
      have hinput := hunforgeable m hmem raw hpack _ hprior _ body tsig hauthentic
      have hhead := macPrefix_prefix_signingInput tsig body v.priorMAC (!v.first)
      cases sent with
      | nil => exact absurd hhead (hsent _ htag _ hinput)
      | cons env sent =>
        obtain ⟨hnext, hrest⟩ := hsent
        have heq := hnext _ htag _ hinput hhead
        obtain ⟨rest, hrestEq⟩ := input_eq_append env v.key prior (!v.first)
        obtain rfl : v.priorMAC = prior := eq_of_macPrefix htag.1 hlen (hrestEq ▸ heq ▸ hhead)
        obtain ⟨frame, hframe⟩ := hunpack m hmem
        have hanswers := answers_of_authentic hframe hpack hauthentic heq
        obtain ⟨stripped, hstrip, -⟩ := hauthentic.strip
        -- the MAC of this envelope is the one to chain on
        have htag' : IsTag v'.key (v.hmac v.key.algorithm v.key.secret (env.input v.key v.priorMAC (!v.first)))
            v'.priorMAC := by
          rw [hkey, hmac', ← heq]
          exact ⟨hauthentic.mac, hauthentic.floor⟩
        have hrest' : (accepted protocol closed wantID wantQ ms (some v')).1 <+:
            sent.flatMap fun env => env.content.answers := by
          refine ih ?_ hsub hms ?_ (.inr ⟨m, hmem, raw, stripped, tsig, hpack, hstrip, hmac'⟩) htag' ?_ ?_
          · rw [hhmac, hkey]
            exact hsize
          · rw [hhmac, hkey]
            exact hunforgeable
          · rw [hsize]
            cases v.key.algorithm <;> decide
          · rw [hhmac, hkey, hfirst]
            exact hrest
        rw [flatMap_cons, ← hanswers]
        exact (prefix_append_right_inj _).mpr hrest'

end Chain

/-! ### Transfers -/

def Event.records : Event → List Record
  | .record rec => [rec]
  | .diff _ _ removed added => removed ++ added

section Emitted

variable {recs front rest : List Record} {e e₀ : TransferError} {serial : UInt32}

theorem splitClosing_append {seen : Bool} (h : splitClosing serial seen recs = some (front, rest)) :
    recs = front ++ rest := by
  induction recs generalizing seen front with
  | nil => cases h
  | cons rec recs ih =>
    have hmap : ∀ {seen : Bool}, (splitClosing serial seen recs).map (fun p => (rec :: p.1, p.2)) =
        some (front, rest) → rec :: recs = front ++ rest := by
      intro seen hmap
      obtain ⟨⟨front', rest'⟩, hsplit, heq⟩ := Option.map_eq_some_iff.mp hmap
      obtain ⟨rfl, rfl⟩ : rec :: front' = front ∧ rest' = rest := by simpa using heq
      rw [ih hsplit]
      rfl
    rw [splitClosing] at h
    split at h
    · split at h
      · obtain ⟨rfl, rfl⟩ : [rec] = front ∧ recs = rest := by simpa using h
        rfl
      · exact hmap h
    · exact hmap h

theorem prefix_of_drains {t t' : ZoneTransfer} {evs : List Record} (h : Drains ZoneTransfer.next t evs e t')
    (hdone : t.done = false) (hout : t.reader.outcome = (recs, e₀)) : evs <+: recs := by
  have hhands := hands_next hdone hout
  cases hsplit : splitClosing t.newSOA.serial t.emittedFirstSOA recs with
  | some split =>
    rw [hsplit] at hhands
    obtain ⟨t'', hdrains, -⟩ := hhands
    obtain ⟨rfl, -, -⟩ := h.unique hdrains
    exact ⟨split.2, (splitClosing_append hsplit).symm⟩
  | none =>
    rw [hsplit] at hhands
    obtain ⟨t'', hdrains, -⟩ := hhands
    obtain ⟨rfl, -, -⟩ := h.unique hdrains
    exact prefix_refl _

theorem sublist_of_diffStep {ev : Event} (h : diffStep serial recs e = .ok (ev, rest)) :
    (ev.records ++ rest).Sublist recs := by
  cases recs with
  | nil => cases h
  | cons soaOld recs =>
    simp only [diffStep, diffRest] at h
    split at h
    · cases h
    split at h
    · cases h
    split at h
    · cases h
    rename_i removed soaNew recs' hsplit
    split at h
    · cases h
    split at h
    · cases h
    rename_i added soa rest' hsplit'
    cases h
    rw [(splitSOA_eq_some hsplit).1, (splitSOA_eq_some hsplit').1, Event.records, append_assoc]
    exact ((List.Sublist.refl _).append (sublist_cons_self _ _)).cons _

theorem sublist_of_drains {t t' : IxfrTransfer} {evs : List Event} (h : Drains IxfrTransfer.next t evs e t')
    (hready : t.Ready recs e₀) : (evs.flatMap Event.records).Sublist recs := by
  induction h generalizing recs with
  | stop => exact nil_sublist _
  | @step t t₁ t' ev evs e hnext _ ih =>
    cases hstep : diffStep t.newSOA.serial recs e₀ with
    | error e₁ =>
      obtain ⟨t₂, hnext', -⟩ := Ready.next_of_error hready hstep
      exact absurd (hnext.symm.trans hnext') (by simp)
    | ok step =>
      obtain ⟨ev', rest⟩ := step
      obtain ⟨t₂, hnext', hready', -⟩ := Ready.next_of_ok hready hstep
      obtain ⟨hev, rfl⟩ := Prod.mk.inj (hnext.symm.trans hnext')
      cases hev
      exact ((List.Sublist.refl _).append (ih hready')).trans (sublist_of_diffStep hstep)

end Emitted

/-! ### Signed transfers -/

section Transfer

variable {hmac : Algorithm → Bytes → Bytes → Bytes} {key : Key} {now : Nat → Int} {fudge : Int} {q q' : Message}
  {v : Verifier}

theorem verifier_of_signQuery
    (hsize : ∀ payload, (hmac key.algorithm key.secret payload).length = Tsig.macSize key.algorithm)
    (h : signQuery hmac key now fudge q = .ok (q', v)) : v.hmac = hmac ∧ v.key = key ∧ v.first = true ∧
      minMACSize key.algorithm ≤ v.priorMAC.length ∧ v.priorMAC.length < 2 ^ 16 := by
  obtain ⟨bytes, -, h⟩ := bind_ok h
  obtain ⟨⟨body, mac, time⟩, hmac', h⟩ := bind_ok h
  obtain ⟨query, -, h⟩ := bind_ok h
  cases h
  obtain ⟨tsig, hauthentic, rfl, -⟩ := Tsig.verifyWithPrefix_eq_ok.mp (mapError_eq_ok.mp hmac')
  refine ⟨rfl, rfl, rfl, hauthentic.floor, ?_⟩
  calc tsig.mac.length ≤ Tsig.macSize key.algorithm := (hsize _) ▸ hauthentic.mac.length_le
    _ < 2 ^ 16 := by cases key.algorithm <;> decide

/-! ### A zone with nothing but its SOA, in two envelopes -/

section Signatures

variable {hmac : Algorithm → Bytes → Bytes → Bytes} {key : Key} {m : Message} {messages : List Message}

theorem spelledBy_of_pack {body : Bytes} (hedns : m.edns = none) (hpack : m.pack = .ok body)
    (hunpack : Message.unpack body = .ok m) : SpelledBy m body := by
  obtain ⟨hnormal, hsent⟩ := Message.normal_of_unpack hunpack
  refine ⟨m.hops.foldr max 0, fun maxHops hle => ?_⟩
  rw [Message.unpackWith_pack_append hnormal hedns hpack (prefix_refl _)
    fun hop hhop => (le_foldr_max hhop).trans hle, hsent]

def signature (m : Message) : Option (Bytes × Tsig.ParsedTSIG) := do
  let raw ← m.pack.toOption
  let (stripped, tsig) ← (Tsig.stripTSIG raw).toOption
  pure (Octets.writeAt 2 stripped 0 tsig.origID.toNat, tsig)

theorem signature_eq_some {raw stripped : Bytes} {tsig : Tsig.ParsedTSIG} (hpack : m.pack = .ok raw)
    (hstrip : Tsig.stripTSIG raw = .ok (stripped, tsig)) :
    signature m = some (Octets.writeAt 2 stripped 0 tsig.origID.toNat, tsig) := by
  simp [signature, hpack, hstrip, Except.toOption]

theorem unforgeable_of_signatures {signed : Bytes → Prop} {requestMAC : Bytes}
    (h : ∀ m ∈ messages, ∀ sig ∈ signature m, ∀ timersOnly,
      ∀ prior ∈ requestMAC :: messages.filterMap fun m => (signature m).map fun sig => sig.2.mac,
        sig.2.mac <+: hmac key.algorithm key.secret (sig.2.signingInput sig.1 (some prior) timersOnly) →
          signed (sig.2.signingInput sig.1 (some prior) timersOnly)) :
    Unforgeable hmac key signed requestMAC messages := by
  intro m hm raw hpack prior hprior timersOnly body tsig hauthentic
  obtain ⟨stripped, hstrip, rfl⟩ := hauthentic.strip
  refine h m hm _ (signature_eq_some hpack hstrip) timersOnly prior ?_ hauthentic.mac
  rcases hprior with rfl | ⟨m', hm', raw', stripped', tsig', hpack', hstrip', rfl⟩
  · exact .head _
  · refine .tail _ (mem_filterMap.mpr ⟨m', hm', ?_⟩)
    rw [signature_eq_some hpack' hstrip']
    rfl

theorem IsTag.eq_take {mac tag : Bytes} (h : IsTag key mac tag) :
    tag = mac.take tag.length ∧ tag.length < mac.length + 1 ∧ minMACSize key.algorithm ≤ tag.length :=
  ⟨prefix_iff_eq_take.mp h.1, Nat.lt_succ_of_le h.1.length_le, h.2⟩

end Signatures

def sampleKey : Key := Tsig.keyK

def sampleFudge : Int := 300 * second

def queryBytes : Bytes := (axfrQuery 7 .root).pack.toOption.getD []

def sampleEnvelope : SignedEnvelope where
  body := (sampleMessage [soaRecord 2]).pack.toOption.getD []
  content := sampleMessage [soaRecord 2]
  timeSigned := 0
  fudge := 300
  spelled := spelledBy_of_pack rfl (by decide +kernel) (by decide +kernel)

def queryMAC : Bytes := bigEndian 32 0xe69acd412efd4ebba3626dd2a59252651f47c45c202ca6e9323b21987e02da45

def openingMAC : Bytes := bigEndian 32 0x8eb9955f0bd46fac5d59cf045bdd7500a7edbca91ac5077bce8908a2ef36704e

def closingMAC : Bytes := bigEndian 32 0xce83a3727f630496d0af0f2ec1369fc96cc681f354d3aa824df84c0a3cf7535f

def queryInput : Bytes :=
  buildSigningInput queryBytes sampleKey.name sampleKey.algorithm.name none 0 300 0 [] false

def openingInput : Bytes := sampleEnvelope.input sampleKey queryMAC false

def closingInput : Bytes := sampleEnvelope.input sampleKey openingMAC true

def sampleHMAC : Algorithm → Bytes → Bytes → Bytes := fun _ _ payload =>
  if payload = queryInput then queryMAC
  else if payload = openingInput then openingMAC
  else if payload = closingInput then closingMAC
  else List.replicate 32 0

def SampleSigned (input : Bytes) : Prop := input ∈ [queryInput, openingInput, closingInput]

instance : DecidablePred SampleSigned := fun input => inferInstanceAs (Decidable (input ∈ _))

def queryFrame : Bytes := (Tsig.signMessage sampleHMAC (axfrQuery 7 .root) sampleKey 0 sampleFudge).toOption.getD []

def openingFrame : Bytes :=
  (Tsig.signResponse sampleHMAC sampleEnvelope.body sampleKey queryMAC 0 sampleFudge).toOption.getD []

def closingFrame : Bytes :=
  ((Tsig.signAXFRChunk sampleHMAC sampleEnvelope.body sampleKey openingMAC 0 sampleFudge).toOption.getD ([], [])).1

def forgedFrame : Bytes := (sampleMessage [nsRecord]).pack.toOption.getD []

def signedQuery : Message := (Message.unpack queryFrame).toOption.getD (axfrQuery 7 .root)

def sampleVerifier : Verifier := newTSIGVerifier sampleHMAC sampleKey queryMAC (fun _ => 0) sampleFudge

theorem length_sampleHMAC (alg : Algorithm) (secret payload : Bytes) : (sampleHMAC alg secret payload).length = 32 := by
  rw [sampleHMAC]
  split_ifs <;> simp [queryMAC, openingMAC, closingMAC]

theorem signQuery_axfrQuery : signQuery sampleHMAC sampleKey (fun _ => 0) sampleFudge (axfrQuery 7 .root) =
    .ok (signedQuery, sampleVerifier) := by
  have hsign : Tsig.signMessage sampleHMAC (axfrQuery 7 .root) sampleKey 0 sampleFudge = .ok queryFrame := by
    decide +kernel
  have hverify : Tsig.verifyMAC sampleHMAC queryFrame sampleKey 0 sampleFudge = .ok (queryBytes, queryMAC, 0) := by
    decide +kernel
  have hunpack : Message.unpack queryFrame = .ok signedQuery := by decide +kernel
  simp only [signQuery, hsign, hverify, hunpack, Except.mapError, bind, Except.bind]
  rfl

theorem eq_of_tag_sample {mac tag input expected : Bytes}
    (h : ∀ n < mac.length + 1, 16 ≤ n → ∀ input ∈ [queryInput, openingInput, closingInput],
      macPrefix (mac.take n) <+: input → input = expected)
    (htag : IsTag sampleKey mac tag) (hinput : SampleSigned input) (hhead : macPrefix tag <+: input) :
    input = expected := by
  obtain ⟨htake, hlt, hfloor⟩ := htag.eq_take
  rw [htake] at hhead
  exact h _ hlt hfloor input hinput hhead

theorem sentBehind_sample : SentBehind sampleHMAC sampleKey SampleSigned false queryMAC [sampleEnvelope, sampleEnvelope] := by
  have hopening : sampleHMAC sampleKey.algorithm sampleKey.secret openingInput = openingMAC := by decide +kernel
  have hclosing : sampleHMAC sampleKey.algorithm sampleKey.secret closingInput = closingMAC := by decide +kernel
  refine ⟨fun tag htag input hinput => eq_of_tag_sample (by decide +kernel) htag hinput, ?_⟩
  change SentBehind _ _ _ true (sampleHMAC _ _ openingInput) _
  rw [hopening]
  refine ⟨fun tag htag input hinput => eq_of_tag_sample (by decide +kernel) htag hinput, ?_⟩
  change SentBehind _ _ _ true (sampleHMAC _ _ closingInput) []
  rw [hclosing]
  intro tag htag input hinput hhead
  -- nothing is signed behind the last MAC, so the bytes would be any bytes at all
  have hnil := @eq_of_tag_sample closingMAC tag input [] (by decide +kernel) htag hinput hhead
  obtain ⟨rest, hrest⟩ := hhead
  rw [hnil] at hrest
  simp [macPrefix, bigEndian] at hrest

theorem drains_sample (frames : List Bytes) (recs : List Record)
    (h : accepted .axfr (connStream signedQuery.id frames .clean).closed signedQuery.id
      (signedQuery.questions.headD (newQuestion .root .axfr)) (connStream signedQuery.id frames .clean).messages
        (some sampleVerifier) = (soaRecord 2 :: recs, .eof))
    (hsplit : splitClosing 2 false (soaRecord 2 :: recs) = some (soaRecord 2 :: recs, [])) :
    ∃ t t', ZoneTransfer.init (openStream .axfr signedQuery sampleVerifier frames .clean) = .ok t ∧
      Drains ZoneTransfer.next t (soaRecord 2 :: recs) .eof t' := by
  obtain ⟨t, hinit, -, hhands⟩ := @hands_of_outcome _ _ _ _ _ rfl (outcome_newReader.trans h) rfl
  rw [show splitClosing _ false _ = some (soaRecord 2 :: recs, []) from hsplit] at hhands
  obtain ⟨t', hdrains, -⟩ := hhands
  exact ⟨t, t', hinit, hdrains⟩

/-- **Signed transfers.** If every envelope carries a TSIG record, those accepted have the records that the key holder
sent in this transfer, and both iterators hand them out in order, for whole zones without a gap. -/
theorem transfer_authentic
    (hsize : ∀ payload, (hmac key.algorithm key.secret payload).length = Tsig.macSize key.algorithm)
    (hquery : signQuery hmac key now fudge q = .ok (q', v)) (frames : List Bytes) (atEnd : ConnEnd)
    (hsigned : ∀ m ∈ (connStream q'.id frames atEnd).messages, messageHasTSIG m = true)
    {signed : Bytes → Prop} (hunforgeable : Unforgeable hmac key signed v.priorMAC (connStream q'.id frames atEnd).messages)
    {sent : List SignedEnvelope} (hsent : SentBehind hmac key signed false v.priorMAC sent) :
    (∀ protocol, (openStream protocol q' v frames atEnd).outcome.1 <+: sent.flatMap fun env => env.content.answers) ∧
    (∀ t evs e t', ZoneTransfer.init (openStream .axfr q' v frames atEnd) = .ok t →
      Drains ZoneTransfer.next t evs e t' → evs <+: sent.flatMap fun env => env.content.answers) ∧
    (∀ clientSerial t evs e t', IxfrTransfer.init (openStream .ixfr q' v frames atEnd) clientSerial = .ok t →
      Drains IxfrTransfer.next t evs e t' →
      (evs.flatMap Event.records).Sublist (sent.flatMap fun env => env.content.answers)) := by
  obtain ⟨rfl, rfl, hfirst, hfloor, hlen⟩ := verifier_of_signQuery hsize hquery
  have houtcome : ∀ protocol, (openStream protocol q' v frames atEnd).outcome.1 <+:
      sent.flatMap fun env => env.content.answers := by
    intro protocol
    refine accepted_prefix hsize (fun _ h => h) (fun m hm => ?_) hsigned hunforgeable (.inl rfl)
      ⟨prefix_refl _, hfloor⟩ hlen (by rw [hfirst]; exact hsent)
    obtain ⟨frame, -, hframe⟩ := unpack_of_mem_connStream hm
    exact ⟨frame, hframe⟩
  refine ⟨houtcome, ?_, ?_⟩
  · intro t evs e t' hinit hdrains
    obtain ⟨rec, recs, e₀, hout, -, hfresh⟩ := init_eq_ok rfl hinit
    have hprefix := houtcome .axfr
    rw [hout] at hprefix
    exact (prefix_of_drains hdrains hfresh.done hfresh.outcome).trans hprefix
  · intro clientSerial t evs e t' hinit hdrains
    refine List.Sublist.trans ?_ (houtcome .ixfr).sublist
    by_cases hkind : t.kind = .upToDate
    · have hstop : IxfrTransfer.next t = (.error .eof, t) := by rw [IxfrTransfer.next, hkind]
      obtain ⟨rfl, -, -⟩ := hdrains.unique (.stop hstop)
      exact nil_sublist _
    · obtain ⟨rec1, rec2, recs, e₀, hout, -, hcase⟩ := ixfrInit_eq_ok rfl hinit hkind
      rw [hout]
      rcases hcase with ⟨hfallback, hfresh⟩ | ⟨hready, -⟩
      · obtain ⟨recs', e', z', hzone⟩ := exists_drains hfresh.done
        obtain ⟨rfl, -, -⟩ := hdrains.unique (drains_fallback hzone rfl hfallback)
        simp only [flatMap_map, Event.records, flatMap_singleton']
        exact (prefix_of_drains hzone hfresh.done hfresh.outcome).sublist
      · exact (sublist_of_drains hdrains hready).cons _

end Transfer

theorem transfer_authentic_sample :
    ∃ t t', ZoneTransfer.init (openStream .axfr signedQuery sampleVerifier [openingFrame, closingFrame] .clean) = .ok t ∧
      Drains ZoneTransfer.next t [soaRecord 2, soaRecord 2] .eof t' ∧
      [soaRecord 2, soaRecord 2] <+: [sampleEnvelope, sampleEnvelope].flatMap fun env => env.content.answers := by
  obtain ⟨t, t', hinit, hdrains⟩ := drains_sample [openingFrame, closingFrame] [soaRecord 2] (by decide +kernel) rfl
  refine ⟨t, t', hinit, hdrains, ?_⟩
  exact (transfer_authentic (length_sampleHMAC _ _) signQuery_axfrQuery _ _ (by decide +kernel)
    (unforgeable_of_signatures (by decide +kernel)) sentBehind_sample).2.1 t _ _ t' hinit hdrains

/-- **An unsigned envelope is believed.** Put between two signed ones, it has its record handed out and the transfer
ended. -/
theorem transfer_forged :
    signQuery sampleHMAC sampleKey (fun _ => 0) sampleFudge (axfrQuery 7 .root) = .ok (signedQuery, sampleVerifier) ∧
    Unforgeable sampleHMAC sampleKey SampleSigned queryMAC
      (connStream signedQuery.id [openingFrame, forgedFrame, closingFrame] .clean).messages ∧
    SentBehind sampleHMAC sampleKey SampleSigned false queryMAC [sampleEnvelope, sampleEnvelope] ∧
    ∃ t t', ZoneTransfer.init
        (openStream .axfr signedQuery sampleVerifier [openingFrame, forgedFrame, closingFrame] .clean) = .ok t ∧
      Drains ZoneTransfer.next t [soaRecord 2, nsRecord, soaRecord 2] .eof t' ∧
      nsRecord ∉ [sampleEnvelope, sampleEnvelope].flatMap fun env => env.content.answers := by
  obtain ⟨t, t', hinit, hdrains⟩ := drains_sample [openingFrame, forgedFrame, closingFrame] [nsRecord, soaRecord 2]
    (by decide +kernel) rfl
  exact ⟨signQuery_axfrQuery, unforgeable_of_signatures (by decide +kernel), sentBehind_sample, t, t', hinit, hdrains,
    by decide⟩

end Acidns.Transfer
