import Acidns.Wire.Size
import Acidns.Forward.Basic

/-!
# Datagrams

`WriteMsg` of `server_udp.go`. A response that is longer than the client or the listener allows is cut down
to its header, its first question and its OPT pseudo-record, and goes out with the TC bit set; what is left
is not measured again. The socket, the bound on calls in flight and the deadlines are left out.
-/

namespace Acidns

open List

open Octets (bigEndian readAt)

/-! ### Flags -/

namespace Flags

def withTruncated (f : Flags) (v : Bool) : Flags := setBit f tc v

theorem setBit_and {mask field : UInt16} (h : mask &&& field = 0) (f : Flags) (on : Bool) :
    f.setBit mask on &&& field = f &&& field := by
  have hbits : ∀ i, (mask.toBitVec.getLsbD i && field.toBitVec.getLsbD i) = false := fun i => by
    rw [← BitVec.getLsbD_and, ← UInt16.toBitVec_and, h]
    exact BitVec.getLsbD_zero
  apply UInt16.toBitVec_inj.mp
  apply BitVec.eq_of_getLsbD_eq
  intro i hi
  unfold setBit
  cases on with
  | true =>
    simp only [if_true, UInt16.toBitVec_and, UInt16.toBitVec_or, BitVec.getLsbD_and, BitVec.getLsbD_or]
    grind
  | false => grind [UInt16.toBitVec_and, UInt16.toBitVec_not]

theorem setBit_true_and (f : Flags) (mask : UInt16) : f.setBit mask true &&& mask = mask := by
  apply UInt16.toBitVec_inj.mp
  apply BitVec.eq_of_getLsbD_eq
  intro i hi
  simp only [setBit, if_true, UInt16.toBitVec_and, UInt16.toBitVec_or, BitVec.getLsbD_and, BitVec.getLsbD_or]
  grind

/-- The flags of a response that has been cut down. Whatever is said about the records no longer holds. -/
def cutDown (f : Flags) : Flags :=
  (((f.withTruncated true).withResponse true).withAuthoritative false).withAuthenticData false

theorem rcode_cutDown (f : Flags) : f.cutDown.rcode = f.rcode := by
  simp only [rcode, cutDown, withAuthenticData, withAuthoritative, withResponse, withTruncated]
  rw [setBit_and (by decide), setBit_and (by decide), setBit_and (by decide), setBit_and (by decide)]

theorem truncated_cutDown (f : Flags) : f.cutDown.truncated = true := by
  have hbit : f.cutDown &&& tc = tc := by
    simp only [cutDown, withAuthenticData, withAuthoritative, withResponse, withTruncated]
    rw [setBit_and (by decide), setBit_and (by decide), setBit_and (by decide), setBit_true_and]
  exact decide_eq_true (by rw [hbit]; decide)

theorem response_cutDown (f : Flags) : f.cutDown.response = true := by
  have hbit : f.cutDown &&& qr = qr := by
    simp only [cutDown, withAuthenticData, withAuthoritative, withResponse]
    rw [setBit_and (by decide), setBit_and (by decide), setBit_true_and]
  exact decide_eq_true (by rw [hbit]; decide)

end Flags

/-- Header and question, with TC set. -/
def Message.cutDown (m : Message) (question : Option Question) : Message :=
  ⟨m.id, m.flags.cutDown, question.toList, [], [], [], m.edns⟩

namespace Udp

/-! ### The listener -/

structure ListenerConfig where
  maxResponseLen : Int

def newListenerConfig (maxResponse : Option Int) : ListenerConfig :=
  ⟨(maxResponse.filter (0 < ·)).getD 1232⟩

def advertised (q : Message) : Nat := (q.edns.map fun e => e.udpSize.toNat).getD 0

structure ResponseWriter where
  maxLen : Int
  wrote : Bool

def responseWriter (cfg : ListenerConfig) (q : Message) : ResponseWriter :=
  let maxResp : Int := 512
  let maxResp := if (advertised q : Int) > maxResp then (advertised q : Int) else maxResp
  ⟨if maxResp > cfg.maxResponseLen then cfg.maxResponseLen else maxResp, false⟩

inductive WriteError where
  | twice
  | pack (e : WireError)
  deriving DecidableEq

/-- A response over the limit is cut down; a second one is refused. -/
def ResponseWriter.writeMsg (w : ResponseWriter) (m : Message) : Except WriteError Bytes × ResponseWriter :=
  if w.wrote then (.error .twice, w)
  else
    match m.pack with
    | .error e => (.error (.pack e), w)
    | .ok buf =>
      if w.maxLen > 0 ∧ buf.length > w.maxLen then
        match (m.cutDown m.questions.head?).pack with
        | .error e => (.error (.pack e), w)
        | .ok buf => (.ok buf, { w with wrote := true })
      else (.ok buf, { w with wrote := true })

/-! ### What a datagram says -/

def headerID (buf : Bytes) : UInt16 := UInt16.ofNat (readAt 2 buf 0)

def headerFlags (buf : Bytes) : Flags := UInt16.ofNat (readAt 2 buf 2)

def sizeLimit (cfg : ListenerConfig) (q : Message) : Int := min (max 512 (advertised q)) cfg.maxResponseLen

/-- What is promised of the datagram for a message that is packed as `packed`. -/
structure Conforms (cfg : ListenerConfig) (q m : Message) (packed datagram : Bytes) : Prop where
  length : datagram.length ≤ sizeLimit cfg q
  id : headerID datagram = m.id
  rcode : (headerFlags datagram).rcode = m.flags.rcode
  opt : ednsBytes m.edns <:+ datagram
  whole : datagram = packed ∨ (headerFlags datagram).truncated = true

/-- The size of the cut-down message. -/
def cutSize (m : Message) : Nat :=
  12 + (m.questions.head?.map fun q => (q.ops.flatMap PackOp.bytes).length).getD 0 + ednsSize m.edns

section Conforms

variable {cfg : ListenerConfig} {q m : Message} {packed : Bytes}

theorem maxLen_responseWriter (cfg : ListenerConfig) (q : Message) :
    (responseWriter cfg q).maxLen = sizeLimit cfg q := by
  simp only [responseWriter, sizeLimit]
  split <;> split <;> omega

theorem headerFields (m : Message) (rest : Bytes) :
    headerID (m.header ++ rest) = m.id ∧ headerFlags (m.header ++ rest) = m.flags := by
  have hid : Octets.At (m.header ++ rest) 0 (bigEndian 2 m.id.toNat) := by
    exact Octets.at_length_append [] _ _
  have hflags : Octets.At (m.header ++ rest) 2 (bigEndian 2 m.flags.toNat) := by
    exact Octets.at_length_append (bigEndian 2 m.id.toNat) _ _
  rw [headerID, headerFlags, hid.readAt, hflags.readAt, Octets.toNat_mod_word, Octets.toNat_mod_word]
  exact ⟨UInt16.ofNat_toNat, UInt16.ofNat_toNat⟩

theorem packed_parts (h : m.pack = .ok packed) :
    headerID packed = m.id ∧ headerFlags packed = m.flags ∧ ednsBytes m.edns <:+ packed ∧
      12 + m.questionBytes.length + ednsSize m.edns ≤ packed.length ∧ packed.length ≤ 0xffff := by
  grind [Message.pack_parts, headerFields, Message.length_header, length_ednsBytes]

theorem length_questionBytes_cutDown (m : Message) :
    12 + (m.cutDown m.questions.head?).questionBytes.length + ednsSize m.edns = cutSize m := by
  rw [cutSize]
  cases hquestions : m.questions with
  | nil => simp [Message.cutDown, Message.questionBytes]
  | cons question rest => simp [Message.cutDown, Message.questionBytes]

theorem cutSize_le (m : Message) : cutSize m ≤ 12 + m.questionBytes.length + ednsSize m.edns := by
  rw [cutSize, Message.questionBytes]
  cases m.questions with
  | nil => simp
  | cons question rest => simp

theorem pack_cutDown (h : m.pack = .ok packed) :
    ∃ cut, (m.cutDown m.questions.head?).pack = .ok cut ∧ cut.length = cutSize m := by
  obtain ⟨-, -, -, hparts, hmax⟩ := packed_parts h
  have hsize := length_questionBytes_cutDown m
  have hle := cutSize_le m
  have hone : (m.cutDown m.questions.head?).questions.length ≤ 0xffff := by
    change m.questions.head?.toList.length ≤ 0xffff
    cases m.questions.head? <;> simp
  have hfits : 12 + (m.cutDown m.questions.head?).questionBytes.length + ednsSize (m.cutDown m.questions.head?).edns ≤
      0xffff := by
    change _ + ednsSize m.edns ≤ _
    omega
  have hempty : (m.cutDown m.questions.head?).records = [] := rfl
  refine ⟨_, (Message.pack_of_no_records hempty).mpr ⟨hone, hfits, rfl⟩, ?_⟩
  rw [← hsize]
  simp only [length_append, Message.length_header, length_ednsBytes]
  rfl

/-- **The size of a response.** The datagram is as promised exactly if the packed message, or what is left when it is
cut down, is within the limit. -/
theorem writeMsg_conforms_iff (cfg : ListenerConfig) (q m : Message) (packed : Bytes) (hmin : 512 ≤ cfg.maxResponseLen)
    (hpack : m.pack = .ok packed) :
    ∃ datagram w, (responseWriter cfg q).writeMsg m = (.ok datagram, w) ∧
      (Conforms cfg q m packed datagram ↔ packed.length ≤ sizeLimit cfg q ∨ cutSize m ≤ sizeLimit cfg q) := by
  obtain ⟨hid, hflags, hopt, -, -⟩ := packed_parts hpack
  have hlimit : 0 < sizeLimit cfg q := by
    rw [sizeLimit]
    omega
  have hfresh : (responseWriter cfg q).wrote = false := rfl
  by_cases hfits : packed.length ≤ sizeLimit cfg q
  · refine ⟨packed, ⟨(responseWriter cfg q).maxLen, true⟩, ?_, iff_of_true ?_ (.inl hfits)⟩
    · simp [ResponseWriter.writeMsg, maxLen_responseWriter, *]
    · exact ⟨hfits, hid, by rw [hflags], hopt, .inl rfl⟩
  · -- what is left goes out without being measured again
    obtain ⟨cut, hcut, hsize⟩ := pack_cutDown hpack
    obtain ⟨hid', hflags', hopt', -, -⟩ := packed_parts hcut
    refine ⟨cut, ⟨(responseWriter cfg q).maxLen, true⟩, ?_, ?_⟩
    · simp [ResponseWriter.writeMsg, maxLen_responseWriter, *]
    · rw [← hsize]
      constructor
      · exact fun hconforms => .inr hconforms.length
      · rintro (hle | hle)
        · exact absurd hle hfits
        · exact ⟨hle, hid', by rw [hflags']; exact m.flags.rcode_cutDown, hopt',
            .inr (by rw [hflags']; exact m.flags.truncated_cutDown)⟩

end Conforms

def rootQuery : Message := ⟨7, Flags.rd, [⟨Name.root, 1, 1, [0]⟩], [], [], [], none⟩

def longResponse : Message :=
  ⟨7, Flags.qr, rootQuery.questions, [newRecord .root 0 (.txt (replicate 2 ⟨replicate 255 0x61, length_replicate.le⟩))], [], [],
    some ⟨1232, 0, 0, false, []⟩⟩

/-- A response of 551 bytes is cut down to 28. -/
theorem writeMsg_conforms_longResponse : ∃ packed datagram w, packed.length = 551 ∧ datagram.length = 28 ∧
    (responseWriter (newListenerConfig none) rootQuery).writeMsg longResponse = (.ok datagram, w) ∧
      Conforms (newListenerConfig none) rootQuery longResponse packed datagram := by
  have hlength : longResponse.pack.toOption.map length = some 551 := by decide +kernel
  obtain ⟨packed, hpack, hpacked⟩ := Option.map_eq_some_iff.mp hlength
  obtain ⟨datagram, w, hwrite, hconforms⟩ :=
    writeMsg_conforms_iff (newListenerConfig none) rootQuery longResponse packed (by decide) (toOption_eq_some hpack)
  have hcut : ((responseWriter (newListenerConfig none) rootQuery).writeMsg longResponse).1.toOption.map length =
      some 28 := by decide +kernel
  rw [hwrite] at hcut
  exact ⟨packed, datagram, w, hpacked, Option.some.inj hcut, hwrite, hconforms.mpr (.inr (by decide))⟩

/-! ### An OPT pseudo-record that is too large -/

def paddedResponse : Message :=
  ⟨7, Flags.qr, rootQuery.questions, [], [], [], some ⟨1232, 0, 0, false, [⟨12, List.replicate 600 0⟩]⟩⟩

/-- The response is cut down, but nothing is gained: the datagram has 632 bytes, and the client takes 512. -/
theorem paddedResponse_exceeds :
    sizeLimit (newListenerConfig none) rootQuery = 512 ∧
    ((responseWriter (newListenerConfig none) rootQuery).writeMsg paddedResponse).1.toOption.map List.length =
      some 632 := by
  constructor
  · decide
  · decide +kernel

end Udp

end Acidns
