import Acidns.Transfer.Authentic
import Acidns.Tsig.RoundTrip

/-!
# Envelopes of an honest server

A server packs each message of a transfer and appends a TSIG record to the bytes. The verifier of the
client sees the message that `Unpack` makes of the envelope, with the TSIG record as one more
additional record, and packs it again to get at the bytes. Packing writes the OPT pseudo-record behind
all additional records, so a message with EDNS comes out with the signature in front of it.
-/

namespace Acidns.Transfer

open List

open Octets (At bigEndian readAt writeAt)
open Tsig (Algorithm Key ParsedTSIG Signable signedInput signedRData withTSIG wholeSeconds)

/-! ### The signed message -/

/-- The TSIG record as `Unpack` returns it: the type has no decoder. -/
def signatureRecord (key : Key) (rd : Bytes) : Record := ⟨key.name, Tsig.tsigClass, 0, .unknown Tsig.tsigType rd⟩

def signedMessage (m : Message) (key : Key) (rd : Bytes) : Message :=
  { m with additionals := m.additionals ++ [signatureRecord key rd] }

def signatureLength (key : Key) : Nat := (key.algorithm.name.appendWire []).length + 16 + Tsig.macSize key.algorithm

/-- What packing again does not disturb: no EDNS, rdata as `Unpack` returns it, room for a signature, and no name behind
too many pointers. Only the length of the signature matters, so it is blank here. -/
structure Repackable (m : Message) (key : Key) : Prop where
  normal : m.Normal
  edns : m.edns = none
  room : ∃ buf, (signedMessage m key (List.replicate (signatureLength key) 0)).pack = .ok buf
  hops : ∀ hop ∈ (signedMessage m key (List.replicate (signatureLength key) 0)).hops, hop ≤ maxPtrHops

section Envelope

variable {m : Message} {key : Key} {rd packed buf : Bytes}

variable {mac rd' msg : Bytes} {now fudge : Int} {p q : Packer} {off : Nat}

theorem length_signedRData (hmac : mac.length = Tsig.macSize key.algorithm) :
    (signedRData packed key mac now fudge).length = signatureLength key := by
  grind [Tsig.buildTSIGRData, Octets.length_bigEndian, signatureLength, Tsig.signedRData]

theorem arcount_signedMessage (hedns : m.edns = none) : (signedMessage m key rd).arcount = m.additionals.length + 1 := by
  simp [Message.arcount, signedMessage, hedns]

theorem headerOps_signedMessage (hedns : m.edns = none) (rd rd' : Bytes) :
    (signedMessage m key rd).headerOps = (signedMessage m key rd').headerOps := by
  grind [Message.headerOps, arcount_signedMessage, signedMessage]

theorem packFramed_raw {head : List PackOp} {e e' : WireError}
    (hlen : rd'.length = rd.length) (h : packFramed e p head [.raw rd] = .ok q) :
    ∃ q', packFramed e' p head [.raw rd'] = .ok q' ∧ q'.buf.length = q.buf.length := by
  grind [packFramed, Packer.run, Packer.apply, Packer.raw, Packer.len, Packer.patch16]

theorem packRecord_signatureRecord (hlen : rd'.length = rd.length)
    (h : packRecord p (signatureRecord key rd) = .ok q) :
    ∃ q', packRecord p (signatureRecord key rd') = .ok q' ∧ q'.buf.length = q.buf.length := by
  have hpack : ∀ bs, packRecord p (signatureRecord key bs) =
      packFramed (invalidMessage s!"rdata too large for type {(signatureRecord key bs).type.string}") p
        (signatureRecord key bs).head [.raw bs] := fun bs => by
    have hneg : ¬(signatureRecord key bs).ttl < 0 := show ¬(0 : Duration) < 0 by decide
    have hmax : ¬(signatureRecord key bs).ttl.tdiv second > maxRecordTTLSeconds :=
      show ¬Int.tdiv 0 second > maxRecordTTLSeconds by decide
    rfl
  exact packFramed_raw hlen h

theorem Repackable.exists_pack (h : Repackable m key) (hrd : rd.length = signatureLength key) :
    ∃ buf, (signedMessage m key rd).pack = .ok buf := by
  obtain ⟨buf, hpack⟩ := h.room
  obtain ⟨hcounts, p, q, hrecords, hq, hmax, rfl⟩ := Message.pack_eq_ok.mp hpack
  have hrecs : ∀ rd, (signedMessage m key rd).records = m.records ++ [signatureRecord key rd] := fun rd => by
    simp [Message.records, signedMessage]
  rw [hrecs, foldlM_append] at hrecords
  obtain ⟨p₁, hinit, hrest⟩ := bind_ok hrecords
  obtain ⟨p₂, hr, hend⟩ := bind_ok hrest
  obtain rfl := Except.ok.inj hend
  obtain ⟨p₂', hr', hlen⟩ := packRecord_signatureRecord (by rw [hrd, length_replicate]) hr
  change Message.packEdns p₂ m.edns = _ at hq
  rw [h.edns] at hq
  cases hq
  have hheader : (signedMessage m key (List.replicate (signatureLength key) 0)).header =
      (signedMessage m key rd).header := by
    rw [Message.header, headerOps_signedMessage h.edns _ rd]
    rfl
  rw [hheader] at hinit
  refine ⟨p₂'.buf, Message.pack_eq_ok.mpr ⟨?_, p₂', p₂', ?_, ?_, hlen ▸ hmax, rfl⟩⟩
  · simpa [signedMessage] using hcounts
  · rw [hrecs, foldlM_append]
    refine (congrArg (· >>= _) hinit).trans ?_
    simp only [bind, Except.bind, foldlM_cons, hr', foldlM_nil, pure, Except.pure]
  · change Message.packEdns p₂' m.edns = _
    rw [h.edns]
    rfl

theorem Repackable.hops_le (h : Repackable m key) (rd : Bytes) :
    ∀ hop ∈ (signedMessage m key rd).hops, hop ≤ maxPtrHops := by
  have hsplit : ∀ bs, (signedMessage m key bs).layoutOps = (signedMessage m key rd).headerOps ++
      (m.questions.flatMap Question.ops ++ m.records.flatMap Record.layoutOps) ++
        (signatureRecord key bs).layoutOps := fun bs => by
    rw [Message.layoutOps, headerOps_signedMessage h.edns bs rd]
    simp [signedMessage, Message.records]
  have hlast : ∀ (lay : Layout) (bs : Bytes), (lay.run (signatureRecord key bs).layoutOps).2 =
      (lay.run (signatureRecord key rd).layoutOps).2 := fun lay bs => rfl
  have hblank := h.hops
  rw [Message.hops, hsplit, Layout.run_append, hlast] at hblank
  rwa [Message.hops, hsplit, Layout.run_append]

theorem normal_signatureRecord (key : Key) (rd : Bytes) : (signatureRecord key rd).Normal :=
  ⟨key.valid, .inr (by decide)⟩

theorem normal_signedMessage (hm : m.Normal) (key : Key) (rd : Bytes) : (signedMessage m key rd).Normal where
  questions := hm.questions
  answers := hm.answers
  authorities := hm.authorities
  additionals := forall_mem_append.mpr ⟨hm.additionals, forall_mem_singleton.mpr
    ⟨normal_signatureRecord key rd, show Tsig.tsigType ≠ optTypeWire by decide⟩⟩
  edns := hm.edns

theorem laidOut_signatureRecord (hrd : rd.length < 65536)
    (hat : At msg off (key.name.appendWire [] ++ Tsig.recordTail rd)) :
    Record.LaidOut msg off (signatureRecord key rd) [0]
      (off + (key.name.appendWire [] ++ Tsig.recordTail rd).length) := by
  have hend := hat.end_le (ne_nil_of_length_pos (by
    rw [length_append, Tsig.length_recordTail]
    omega))
  obtain ⟨hname, htail⟩ := Octets.at_append.mp hat
  rw [key.name.appendWire_nil] at hname htail hend ⊢
  have hspells := Labels.spells_encode (fun l hl => (Name.isNameLabel_of_mem_labels hl).1) hname
  have hword : (UInt16.ofNat rd.length).toNat = rd.length := Decoder.toNat_ofNat16 (by omega)
  simp only [Tsig.recordTail, Octets.at_append, Octets.length_bigEndian] at htail
  obtain ⟨htype, hclass, httl, hlen, hrdata⟩ := htail
  refine ⟨⟨UInt16.ofNat rd.length, off + (Labels.encode key.name.labels).length + 10, [0], [], rfl, ?_, ?_, ?_⟩,
    show Duration.seconds32 0 < 0x80000000 by decide, hend⟩
  · refine laid_name.mpr ⟨0, [], _, rfl, hspells, laid_uint16.mpr ⟨htype, laid_uint16.mpr ⟨hclass,
      laid_uint32.mpr ⟨httl, laid_uint16.mpr ⟨?_, laid_nil.mpr ⟨rfl, rfl⟩⟩⟩⟩⟩⟩
    rwa [hword]
  · refine laid_raw.mpr ⟨hrdata, laid_nil.mpr ⟨rfl, ?_⟩⟩
    rw [length_append, Tsig.length_recordTail]
    omega
  · rw [hword, length_append, Tsig.length_recordTail]
    omega

theorem recordTail_of_laidOut {off' : Nat} {hops : List Nat}
    (h : Record.LaidOut msg off (signatureRecord key rd) hops off') : ∃ hop next, hop ∈ hops ∧
      Labels.Spells msg off key.name.labels hop next ∧ At msg next (Tsig.recordTail rd) := by
  obtain ⟨hop, back, next, mid, rdlen, rfl, hname, htype, hclass, httl, hlen, rfl, hbody, -⟩ := h.inv
  obtain ⟨hrdata, hnil⟩ := laid_raw.mp hbody
  obtain ⟨-, hend⟩ := laid_nil.mp hnil
  have hword : rdlen.toNat = rd.length := by omega
  rw [hword] at hlen
  refine ⟨hop, next, .head _, hname, ?_⟩
  simp only [Tsig.recordTail, Octets.at_append, Octets.length_bigEndian]
  exact ⟨htype, hclass, httl, hlen, hrdata⟩

section

variable (h : Repackable m key) (hpack : m.pack = .ok packed) (hrd : rd.length = signatureLength key)

include h hpack hrd

theorem exists_body : ∃ body buf tail ks ks', packed = m.header ++ body ∧
      withTSIG packed key rd =
        (signedMessage m key rd).header ++ body ++ (key.name.appendWire [] ++ Tsig.recordTail rd) ∧
      (signedMessage m key rd).pack = .ok buf ∧ buf = (signedMessage m key rd).header ++ body ++ tail ∧
      (signedMessage m key rd).hops = ks ++ ks' ∧
      (∀ msg, (signedMessage m key rd).header ++ body <+: msg →
        Parser.Sequence (fun o q ks o' => Laid msg o (Question.ops q) ks o') 12 m.questions []
          (12 + m.questionBytes.length) ∧
        Parser.Sequence (Record.LaidOut msg) (12 + m.questionBytes.length) m.records ks
          ((signedMessage m key rd).header ++ body).length) ∧
      Record.LaidOut buf ((signedMessage m key rd).header ++ body).length (signatureRecord key rd) ks' buf.length := by
  obtain ⟨buf, hbuf⟩ := h.exists_pack hrd
  obtain ⟨body, tail, ks, ks', hsplit, hhops, hinit, hlaid, hlast⟩ :=
    Message.pack_split (m := signedMessage m key rd) h.edns rfl hbuf
  have hpacked : packed = m.header ++ body := Except.ok.inj (hpack.symm.trans (hinit m.id))
  have hmax : (signedMessage m key rd).additionals.length ≤ 0xffff := (Message.pack_ok hbuf).2.2.2.1
  have hlen : 12 ≤ packed.length := by
    rw [hpacked, length_append, Message.length_header]
    omega
  have harcount : readAt 2 packed 10 + 1 = (signedMessage m key rd).additionals.length := by
    rw [(Tsig.readAt_counts hpack).2.2.2, Message.arcount, h.edns]
    simp [signedMessage]
  refine ⟨body, buf, tail, ks, ks', hpacked, ?_, hbuf, hsplit, hhops, hlaid, hlast⟩
  rw [Tsig.withTSIG_eq hlen, Tsig.announced, harcount, hpacked, Tsig.writeAt_arcount h.edns hmax]
  rfl

theorem unpack_withTSIG (hfit : rd.length < 65536) :
    Message.unpack (withTSIG packed key rd) = .ok (signedMessage m key rd).sent := by
  obtain ⟨body, buf, tail, ks, ks', -, hout, hbuf, -, hhops, hlaid, -⟩ := exists_body h hpack hrd
  have hks := h.hops_le rd
  rw [hhops] at hks
  obtain ⟨hks, -⟩ := forall_mem_append.mp hks
  obtain ⟨hquestions, hrecords⟩ := hlaid (withTSIG packed key rd) ⟨_, hout.symm⟩
  have hat := Octets.at_length_append ((signedMessage m key rd).header ++ body)
    (key.name.appendWire [] ++ Tsig.recordTail rd) []
  rw [append_nil, ← hout] at hat
  have hlast := laidOut_signatureRecord hfit hat
  have hall := hrecords.append (.cons hlast .nil)
  rw [Message.records, append_assoc] at hall
  obtain ⟨hq, ha, hn, hd, -⟩ := Message.pack_ok hbuf
  refine Message.unpackWith_of_sequences (normal_signedMessage h.normal key rd) h.edns ⟨hq, ha, hn, hd⟩ ?_ hquestions
    hall ?_
  · rw [hout, append_assoc]
    exact prefix_append _ _
  · exact forall_mem_append.mpr ⟨hks, by simp⟩

end

theorem stripTSIG_repacked (h : Repackable m key) (hsign : Signable key now fudge)
    (hmac : mac.length = Tsig.macSize key.algorithm) (hpack : m.pack = .ok packed)
    (hrd : signedRData packed key mac now fudge = rd) : ∃ buf stripped,
      (signedMessage m key rd).pack = .ok buf ∧ Tsig.stripTSIG buf = .ok (stripped,
        { keyName := key.name, algorithm := key.algorithm.name, timeSigned := (now / second).toNat
          fudge := UInt16.ofNat (fudge / second).toNat, mac, origID := UInt16.ofNat (readAt 2 packed 0), errCode := 0
          other := [] }) := by
  have hshort : mac.length ≤ 64 := hmac ▸ Tsig.macSize_le _
  have hfit : rd.length < 65536 := hrd ▸ Tsig.length_signedRData_lt hshort
  obtain ⟨body, buf, tail, ks, ks', -, -, hbuf, hsplit, hhops, hlaid, hlast⟩ :=
    exists_body h hpack (hrd ▸ length_signedRData hmac)
  have hks := h.hops_le rd
  rw [hhops] at hks
  obtain ⟨hqd, han, hns, har⟩ := Tsig.readAt_counts hbuf
  obtain ⟨hquestions, hrecords⟩ := hlaid buf ⟨tail, hsplit.symm⟩
  have harcount : readAt 2 buf 10 = m.additionals.length + 1 := har.trans (arcount_signedMessage h.edns)
  have hcount : readAt 2 buf 6 + readAt 2 buf 8 + readAt 2 buf 10 = m.records.length + 1 := by
    rw [han, hns, harcount, Message.records, length_append, length_append]
    exact (Nat.add_assoc _ _ _).symm
  have hstart := Tsig.findLastRROffset_of_laidOut hqd h.normal.questions hquestions hcount (by omega)
    (fun r hr => Tsig.valid_of_mem_records h.normal hr) hrecords key.valid hlast hks
  obtain ⟨hop, next, hmem, hname, htail⟩ := recordTail_of_laidOut hlast
  have howner := Name.decodeWire_of_spells key.valid hname (hks hop (mem_append_right ks hmem))
  have hlen : 12 ≤ buf.length := by
    rw [hsplit, append_assoc, length_append, Message.length_header]
    omega
  subst hrd
  exact ⟨buf, _, hbuf, Tsig.stripTSIG_of_at hlen (Tsig.isValid_algorithm _) hsign.timeSigned_lt (by omega) (by decide)
    hfit hstart howner htail⟩

/-- The receiver finds the signature over what was sent. -/
theorem exists_verified {hmac : Algorithm → Bytes → Bytes → Bytes} {priorMAC : Option Bytes} {timersOnly : Bool}
    {now' : Int} {out : Bytes}
    (hsize : ∀ payload, (hmac key.algorithm key.secret payload).length = Tsig.macSize key.algorithm)
    (h : Repackable m key) (hsign : Signable key now fudge) (hpack : m.pack = .ok packed)
    (hout : Tsig.signWithPrefix hmac packed key priorMAC timersOnly now fudge = .ok (out, mac))
    (hlow : -fudge ≤ now' - wholeSeconds now) (hhigh : now' - wholeSeconds now ≤ fudge) :
    ∃ m' buf, Message.unpack out = .ok m' ∧ messageHasTSIG m' ∧ m'.pack = .ok buf ∧
      Tsig.verifyWithPrefix hmac buf key priorMAC timersOnly now' fudge = .ok (packed, mac, wholeSeconds now) := by
  obtain ⟨-, -, -, -, -, ⟨hlaid⟩⟩ := Message.pack_ok hpack
  obtain ⟨hid, -, -, -, -, har, -⟩ := Message.header_words hlaid.header
  have hlen : 12 ≤ packed.length := har.end_le (by simp [bigEndian])
  have horig : UInt16.ofNat (readAt 2 packed 0) = m.id := by
    rw [hid.readAt, Octets.toNat_mod_word]
    exact UInt16.ofNat_toNat
  rw [Tsig.signWithPrefix_eq hsign hlen] at hout
  generalize hinput : signedInput packed key priorMAC timersOnly now fudge = input at hout
  cases hout
  have hmac := hsize input
  obtain ⟨buf, stripped, hbuf, hstrip⟩ := stripTSIG_repacked h hsign hmac hpack rfl
  obtain ⟨-, hbody⟩ := Tsig.pack_of_stripTSIG (normal_signedMessage h.normal key _) hbuf hstrip
  simp only [horig, signedMessage, dropLast_concat] at hbody
  have hpacked := Except.ok.inj (hpack.symm.trans hbody)
  have hsigned : ((now / second).toNat : Int) * second = wholeSeconds now := by
    rw [Int.toNat_of_nonneg (Int.ediv_nonneg hsign.now_nonneg (by decide)), wholeSeconds]
  refine ⟨_, buf, unpack_withTSIG h hpack (length_signedRData hmac)
    (Tsig.length_signedRData_lt (hmac ▸ Tsig.macSize_le _)), ?_, Message.pack_sent hbuf,
    Tsig.verifyWithPrefix_eq_ok.mpr ⟨_, ⟨⟨stripped, hstrip, horig ▸ hpacked⟩, rfl, rfl, hsign.enabled, ?_, ?_⟩,
      rfl, hsigned, Tsig.inWindow_of_near hlow hhigh⟩⟩
  · simp [messageHasTSIG, Message.sent, signedMessage, signatureRecord, Record.sent, Record.type, RData.type]
  · rw [hmac]
    exact Tsig.minMACSize_le_macSize _
  · rw [← hinput]
    exact prefix_refl _

end Envelope

/-! ### The stream -/

section Stream

variable (hmac : Algorithm → Bytes → Bytes → Bytes) (key : Key) (fudge : Int)

/-- Envelopes, each signed at the time beside it and chained on the MAC in front; the first as a response to a request.
`SignResponse` does not return the MAC that goes into the second. -/
inductive SignedStream : (first : Bool) → (prior : Bytes) → List (Message × Int) → List Bytes → Prop
  | nil {first : Bool} {prior : Bytes} : SignedStream first prior [] []
  | opening {m : Message} {now : Int} {packed prior out mac : Bytes} {rest : List (Message × Int)}
      {outs : List Bytes} : m.pack = .ok packed → Tsig.signResponse hmac packed key prior now fudge = .ok out →
      Tsig.signWithPrefix hmac packed key (some prior) false now fudge = .ok (out, mac) →
      SignedStream false mac rest outs → SignedStream true prior ((m, now) :: rest) (out :: outs)
  | following {m : Message} {now : Int} {packed prior out mac : Bytes} {rest : List (Message × Int)}
      {outs : List Bytes} : m.pack = .ok packed →
      Tsig.signAXFRChunk hmac packed key prior now fudge = .ok (out, mac) →
      SignedStream false mac rest outs → SignedStream false prior ((m, now) :: rest) (out :: outs)

def Verifier.acceptsAll : (ms : List Message) → Verifier → Bool
  | [], _ => true
  | m :: ms, v =>
    match v.verify m with
    | (.ok (), v) => acceptsAll ms v
    | (.error _, _) => false

/-- The clock of the verifier shows a time near the one that was signed, for each envelope. -/
def InTime (clock : Nat → Int) (envelopes : List (Message × Int)) : Prop :=
  ∀ i m now, envelopes[i]? = some (m, now) → -fudge ≤ clock i - wholeSeconds now ∧ clock i - wholeSeconds now ≤ fudge

def Sendable (envelope : Message × Int) : Prop :=
  Repackable envelope.1 key ∧ 0 ≤ envelope.2 ∧ envelope.2 < 2 ^ 48 * second

variable {hmac key fudge}

theorem signable_of_signWithPrefix {msg out mac : Bytes} {priorMAC : Option Bytes} {timersOnly : Bool} {now : Int}
    (h : Tsig.signWithPrefix hmac msg key priorMAC timersOnly now fudge = .ok (out, mac)) (hnow : 0 ≤ now)
    (hlt : now < 2 ^ 48 * second) : Signable key now fudge := by
  obtain ⟨_, -, h⟩ := bind_ok h
  obtain ⟨_, hneg, h⟩ := bind_ok h
  obtain ⟨_, hmax, h⟩ := bind_ok h
  obtain ⟨_, hmac, -⟩ := bind_ok h
  rw [refuseIf_ok] at hneg hmax
  exact ⟨(Tsig.computeHMAC_eq_ok.mp hmac).1, hnow, hlt, Int.not_lt.mp hneg, Int.not_lt.mp hmax⟩

variable {v : Verifier} {m : Message} {now : Int} {packed out mac : Bytes}

theorem exists_accepted
    (hsize : ∀ payload, (v.hmac v.key.algorithm v.key.secret payload).length = Tsig.macSize v.key.algorithm)
    (hm : Sendable v.key (m, now)) (hpack : m.pack = .ok packed) (hprior : v.priorMAC ≠ [])
    (hout : Tsig.signWithPrefix v.hmac packed v.key (some v.priorMAC) (!v.first) now v.fudge = .ok (out, mac))
    (hlow : -v.fudge ≤ v.now v.readings - wholeSeconds now) (hhigh : v.now v.readings - wholeSeconds now ≤ v.fudge) :
    ∃ m', Message.unpack out = .ok m' ∧ v.verify m' =
      (.ok (), { v with readings := v.readings + 1, priorMAC := mac, first := false, unsignedRun := 0 }) := by
  obtain ⟨hrepack, hnow, hlt⟩ := hm
  obtain ⟨m', buf, hunpack, htsig, hbuf, hverify⟩ :=
    exists_verified hsize hrepack (signable_of_signWithPrefix hout hnow hlt) hpack hout hlow hhigh
  refine ⟨m', hunpack, ?_⟩
  have hcheck : ∀ e : Tsig.TsigError, refuseIf (v.priorMAC = []) e = .ok () := fun e => refuseIf_ok.mpr hprior
  rw [Verifier.verify, if_pos htsig, if_pos htsig]
  split
  · rename_i hfirst
    rw [hfirst] at hverify
    simp only [Verifier.verifySigned, hbuf, Tsig.verifyResponse, hcheck, bind, Except.bind]
    rw [show false = !true from rfl, hverify]
  · rename_i hfirst
    rw [Bool.eq_false_iff.mpr hfirst] at hverify
    simp only [Verifier.verifySigned, hbuf, Tsig.verifyAXFRChunk, hcheck, bind, Except.bind]
    rw [show true = !false from rfl, hverify]

variable {rest : List (Message × Int)} {first : Bool} {prior : Bytes} {outs : List Bytes}

theorem InTime.tail {clock : Nat → Int} {envelope : Message × Int}
    (h : InTime fudge clock (envelope :: rest)) : InTime fudge (fun i => clock (i + 1)) rest :=
  fun i m now hi => h (i + 1) m now hi

theorem SignedStream.eq_nil (h : SignedStream hmac key fudge first prior [] outs) : outs = [] := by
  cases h
  rfl

theorem SignedStream.cons_inv (h : SignedStream hmac key fudge first prior ((m, now) :: rest) outs) :
    ∃ packed out mac outs', outs = out :: outs' ∧ m.pack = .ok packed ∧ prior ≠ [] ∧
      Tsig.signWithPrefix hmac packed key (some prior) (!first) now fudge = .ok (out, mac) ∧
      SignedStream hmac key fudge false mac rest outs' := by
  cases h with
  | opening hpack hresponse hsign hrest =>
    obtain ⟨_, hprior, -⟩ := bind_ok hresponse
    exact ⟨_, _, _, _, rfl, hpack, refuseIf_ok.mp hprior, hsign, hrest⟩
  | following hpack hchunk hrest =>
    obtain ⟨_, hprior, hsign⟩ := bind_ok hchunk
    exact ⟨_, _, _, _, rfl, hpack, refuseIf_ok.mp hprior, hsign, hrest⟩

theorem SignedStream.accepted {envelopes : List (Message × Int)}
    (hsize : ∀ payload, (v.hmac v.key.algorithm v.key.secret payload).length = Tsig.macSize v.key.algorithm)
    (h : SignedStream v.hmac v.key v.fudge v.first v.priorMAC envelopes outs) (hsend : ∀ e ∈ envelopes, Sendable v.key e)
    (htime : InTime v.fudge (fun i => v.now (v.readings + i)) envelopes) :
    ∃ ms, outs.map Message.unpack = ms.map .ok ∧ v.acceptsAll ms = true := by
  induction envelopes generalizing v outs with
  | nil =>
    obtain rfl := h.eq_nil
    exact ⟨[], rfl, rfl⟩
  | cons envelope rest ih =>
    obtain ⟨m, now⟩ := envelope
    obtain ⟨packed, out, mac, outs, rfl, hpack, hprior, hsign, hrest⟩ := h.cons_inv
    obtain ⟨hfirst, hsend⟩ := forall_mem_cons.mp hsend
    obtain ⟨hlow, hhigh⟩ := htime 0 m now rfl
    obtain ⟨m', hunpack, hverify⟩ := exists_accepted hsize hfirst hpack hprior hsign hlow hhigh
    -- the rest of the stream is read with the clock one reading further
    have hclock : InTime v.fudge (fun i => v.now (v.readings + 1 + i)) rest := by
      have htail := htime.tail
      simpa only [Nat.add_assoc, Nat.add_comm 1] using htail
    obtain ⟨ms, hms, haccepts⟩ :=
      @ih { v with readings := v.readings + 1, priorMAC := mac, first := false, unsignedRun := 0 } outs hsize hrest
        hsend hclock
    refine ⟨m' :: ms, by rw [map_cons, map_cons, hunpack, hms], ?_⟩
    rw [Verifier.acceptsAll, hverify]
    exact haccepts

end Stream

def ednsMessage : Message := { sampleMessage [soaRecord 2] with edns := some ⟨1232, 0, 0, false, []⟩ }

def ednsBytes : Bytes := ednsMessage.pack.toOption.getD []

end Acidns.Transfer
