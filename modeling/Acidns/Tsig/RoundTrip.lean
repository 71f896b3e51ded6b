import Acidns.Tsig.Walk
import Acidns.Wire.Text

/-!
# Signing and verifying

What one side signs, the other side verifies: the walker comes to the TSIG record that was appended,
and what is left without it is the message that was signed. Signing changes the number of additional
records in the header. A name whose compression pointers lead into the header is read from the changed
octets, so the walker may fail on the signed message although the message itself can be read.
-/

namespace Acidns.Tsig

open List

open Octets (At Coincide bigEndian readAt writeAt)

/-! ### Reading the record -/

section Record

variable {msg mac other : Bytes} {off start time : Nat} {n keyName algName : Name} {fudge origID err : UInt16}

theorem decodeName_of_at {context : String} (hn : n.isValid) (hat : At msg off (n.appendWire [])) :
    decodeName context msg off = .ok (n, off + (n.appendWire []).length) := by
  rw [n.appendWire_nil] at hat ⊢
  apply decodeName_eq_ok.mpr
  exact Name.decodeWire_of_spells hn
    (Labels.spells_encode (fun l hl => (Name.isNameLabel_of_mem_labels hl).1) hat) (Nat.zero_le _)

theorem readAt_word {v : UInt16} (hat : At msg off (bigEndian 2 v.toNat)) :
    UInt16.ofNat (readAt 2 msg off) = v := by
  rw [hat.readAt, Octets.toNat_mod_word, UInt16.ofNat_toNat]

/-- The parser reads back what the builder wrote. -/
theorem parseTSIGRData_of_at (halg : algName.isValid) (htime : time < 256 ^ 6) (hmac : mac.length < 65536)
    (hother : other.length < 65536)
    (hat : At msg start (buildTSIGRData algName time fudge mac origID err other)) :
    parseTSIGRData keyName msg start (start + (buildTSIGRData algName time fudge mac origID err other).length) =
      .ok { keyName, algorithm := algName, timeSigned := time, fudge, mac, origID, errCode := err, other } := by
  have hlen : (buildTSIGRData algName time fudge mac origID err other).length =
      (algName.appendWire []).length + 16 + mac.length + other.length := by
    simp only [buildTSIGRData, length_append, Octets.length_bigEndian]
    omega
  generalize hend : start + (buildTSIGRData algName time fudge mac origID err other).length = end_
  simp only [buildTSIGRData, append_assoc, Octets.at_append, Octets.length_bigEndian] at hat
  obtain ⟨hname, htimeAt, hfudgeAt, hsizeAt, hmacAt, hidAt, herrAt, hlenAt, hotherAt⟩ := hat
  generalize hoff : start + (algName.appendWire []).length = off at *
  have hsize : readAt 2 msg (off + 8) = mac.length := by
    rw [hsizeAt.readAt]
    exact Nat.mod_eq_of_lt hmac
  have hotherLen : readAt 2 msg (off + 10 + mac.length + 4) = other.length := by
    rw [hlenAt.readAt]
    exact Nat.mod_eq_of_lt hother
  have htimeRead : readAt 6 msg off = time := by
    rw [htimeAt.readAt]
    exact Nat.mod_eq_of_lt htime
  rw [parseTSIGRData, decodeName_of_at halg hname, hoff]
  have hfixed : ¬off + 6 + 2 + 2 > end_ := by omega
  have hrest : ¬off + 10 + mac.length + 2 + 2 + 2 > end_ := by omega
  have hall : ¬off + 10 + mac.length + 6 + other.length > end_ := by omega
  simp only [bind, Except.bind, refuseIf, if_neg hfixed, hsize, if_neg hrest, hotherLen, if_neg hall, pure,
    Except.pure, htimeRead, readAt_word hfudgeAt, readAt_word hidAt, readAt_word herrAt, hmacAt.take_drop]
  congr 2
  exact hotherAt.take_drop

/-- The record behind its owner. -/
def recordTail (rd : Bytes) : Bytes :=
  bigEndian 2 tsigType.toNat ++ (bigEndian 2 tsigClass.toNat ++ (bigEndian 4 0 ++ (bigEndian 2 rd.length ++ rd)))

theorem length_recordTail (rd : Bytes) : (recordTail rd).length = 10 + rd.length := by
  simp only [recordTail, length_append, Octets.length_bigEndian]
  omega

theorem appendTSIGRR_eq (owner : Name) (rd : Bytes) :
    appendTSIGRR msg owner rd = msg ++ (owner.appendWire [] ++ recordTail rd) := by
  simp only [appendTSIGRR, recordTail, append_assoc]

theorem recordTail_inv {rd : Bytes} (hrd : rd.length < 65536) (hat : At msg off (recordTail rd)) :
    readAt 2 msg off = tsigType.toNat ∧ readAt 2 msg (off + 8) = rd.length ∧ At msg (off + 10) rd ∧
      off + 10 + rd.length ≤ msg.length := by
  have hend := hat.end_le (ne_nil_of_length_pos (by rw [length_recordTail]; omega))
  rw [length_recordTail, ← Nat.add_assoc] at hend
  simp only [recordTail, Octets.at_append, Octets.length_bigEndian] at hat
  obtain ⟨htype, -, -, hlen, hrdata⟩ := hat
  refine ⟨htype.readAt, ?_, hrdata, hend⟩
  rw [hlen.readAt]
  exact Nat.mod_eq_of_lt hrd

theorem skipRR_of_tail {rd : Bytes} (hrd : rd.length < 65536)
    (howner : decodeWire maxPtrHops msg start = .ok (keyName, off)) (hat : At msg off (recordTail rd)) :
    skipRR msg start = .ok (off + 10 + rd.length) := by
  obtain ⟨-, hlen, -, hend⟩ := recordTail_inv hrd hat
  have hheader : ¬off + 10 > msg.length := by omega
  have hbody : ¬off + 10 + rd.length > msg.length := by omega
  rw [skipRR, decodeName_eq_ok.mpr howner]
  simp only [bind, Except.bind, refuseIf, if_neg hheader, hlen, if_neg hbody, pure, Except.pure]

theorem stripTSIG_of_at (hmsg : 12 ≤ msg.length) (halg : algName.isValid) (htime : time < 256 ^ 6)
    (hmac : mac.length < 65536) (hother : other.length < 65536)
    (hrd : (buildTSIGRData algName time fudge mac origID err other).length < 65536)
    (hstart : findLastRROffset msg = .ok start) (howner : decodeWire maxPtrHops msg start = .ok (keyName, off))
    (hat : At msg off (recordTail (buildTSIGRData algName time fudge mac origID err other))) :
    stripTSIG msg = .ok (writeAt 2 (msg.take start) 10 (readAt 2 msg 10 - 1),
      { keyName, algorithm := algName, timeSigned := time, fudge, mac, origID, errCode := err, other }) := by
  have hpos := (findLastRROffset_eq_ok.mp hstart).1
  obtain ⟨htype, hlen, hrdata, hend⟩ := recordTail_inv hrd hat
  have hshort : ¬msg.length < 12 := by omega
  have hnone : ¬readAt 2 msg 10 = 0 := by omega
  have hheader : ¬off + 10 > msg.length := by omega
  have hbody : ¬off + 10 + (buildTSIGRData algName time fudge mac origID err other).length > msg.length := by omega
  rw [stripTSIG, hstart]
  simp only [bind, Except.bind, refuseIf, if_neg hshort, if_neg hnone, decodeName_eq_ok.mpr howner, if_neg hheader,
    htype, ne_eq, not_true_eq_false, if_false, hlen, if_neg hbody,
    parseTSIGRData_of_at halg htime hmac hother hrdata, pure, Except.pure]

end Record

/-! ### The signed message -/

section Signed

variable {msg rd : Bytes} {key : Key} {qs rs : List Nat} {answersAt o : Nat}

/-- The message with the record, and with the record counted. -/
def withTSIG (msg : Bytes) (key : Key) (rd : Bytes) : Bytes :=
  writeAt 2 (appendTSIGRR msg key.name rd) 10 (readAt 2 msg 10 + 1)

/-- The message with one more additional record announced. -/
def announced (msg : Bytes) : Bytes := writeAt 2 msg 10 (readAt 2 msg 10 + 1)

section

variable (hmsg : 12 ≤ msg.length)

include hmsg

theorem withTSIG_eq : withTSIG msg key rd =
    announced msg ++ (key.name.appendWire [] ++ recordTail rd) := by
  rw [withTSIG, appendTSIGRR_eq, Octets.writeAt_append_left (by omega), announced]

theorem coincide_withTSIG {start end_ : Nat} (hend : end_ ≤ msg.length)
    (hout : end_ ≤ 10 ∨ 12 ≤ start) : Coincide msg (withTSIG msg key rd) start end_ := by
  intro i hlow hhigh
  rw [withTSIG_eq hmsg, announced, List.getElem?_append_left (by rw [Octets.length_writeAt] <;> omega),
    Octets.getElem?_writeAt (by omega), if_neg (by omega)]

theorem readAt_withTSIG {off : Nat} (hoff : off + 2 ≤ 10) :
    readAt 2 (withTSIG msg key rd) off = readAt 2 msg off :=
  (Octets.readAt_congr (coincide_withTSIG hmsg (by omega) (.inl hoff))).symm

theorem readAt_ten_withTSIG (harcount : readAt 2 msg 10 < 65535) :
    readAt 2 (withTSIG msg key rd) 10 = readAt 2 msg 10 + 1 := by
  have hlen : (appendTSIGRR msg key.name rd).length ≥ 12 := by
    rw [appendTSIGRR_eq, length_append]
    omega
  rw [withTSIG, Octets.readAt_writeAt (by omega)]
  exact Nat.mod_eq_of_lt (by omega)

theorem decodes_of_plainName (hlow : 12 ≤ o) (hplain : PlainName msg o) :
    Decodes (withTSIG msg key rd) o := by
  obtain ⟨n, ls, hls, hwire, hat⟩ := hplain
  have hend := hat.end_le (Labels.encode_ne_nil ls)
  have hat' : At (withTSIG msg key rd) o (Labels.encode ls) :=
    ((coincide_withTSIG hmsg hend (.inr hlow)).at_iff (Nat.le_refl _)).mp hat
  exact ⟨n, _, Name.decodeWire_of_spells_fold hwire (Labels.spells_encode hls hat') (Nat.zero_le _)⟩

theorem at_withTSIG :
    At (withTSIG msg key rd) msg.length (key.name.appendWire [] ++ recordTail rd) := by
  grind [Octets.length_writeAt, withTSIG_eq, announced, Octets.At]

theorem decodes_of_announced (h : Decodes (announced msg) o) : Decodes (withTSIG msg key rd) o := by
  obtain ⟨n, next, hdecode⟩ := h
  exact ⟨n, next, decodeWire_mono hdecode (by rw [withTSIG_eq hmsg]; exact prefix_append _ _)⟩

theorem findLastRROffset_withTSIG (harcount : readAt 2 msg 10 < 65535)
    (hrd : rd.length < 65536) (hspread : Spread msg qs rs answersAt msg.length) (hcount : rs.length = recordCount msg)
    (hplain : ∀ o ∈ qs, PlainName msg o) (hread : ∀ o ∈ rs, Decodes (announced msg) o) :
    findLastRROffset (withTSIG msg key rd) = .ok msg.length := by
  have hrecords : recordCount (withTSIG msg key rd) = rs.length + 1 := by
    grind [recordCount, readAt_withTSIG, readAt_ten_withTSIG]
  have hspread' : Spread (withTSIG msg key rd) qs rs answersAt msg.length := by
    have hle := hspread.records.le
    refine ⟨hspread.questions.of_coincide (coincide_withTSIG hmsg hle (.inr (Nat.le_refl _))), ?_,
      hspread.records.of_coincide (coincide_withTSIG hmsg (Nat.le_refl _) (.inr hspread.questions.le))⟩
    rw [hspread.qdcount, readAt_withTSIG hmsg (by omega)]
  obtain ⟨hname, htail⟩ := Octets.at_append.mp (@at_withTSIG msg rd key hmsg)
  have howner := decodeName_eq_ok.mp (@decodeName_of_at _ _ _ "" key.valid hname)
  refine findLastRROffset_eq_ok.mpr ⟨?_, qs, rs, answersAt, hspread', hrecords.symm, fun o ho => ?_,
    fun o ho => decodes_of_announced hmsg (hread o ho), _, skipRR_of_tail hrd howner htail⟩
  · rw [readAt_ten_withTSIG hmsg harcount]
    omega
  · exact decodes_of_plainName hmsg (hspread.questions.le_of_mem ho) (hplain o ho)

end
end Signed

/-! ### Round trip -/

section RoundTrip

variable {hmac : Algorithm → Bytes → Bytes → Bytes} {msg : Bytes} {key : Key} {priorMAC : Option Bytes}
  {timersOnly : Bool} {now now' fudge : Int}

/-- `Unpack` accepts the message, and the sections take up all of it. -/
def UnpacksWhole (msg : Bytes) : Prop :=
  (∃ m, Message.unpack msg = .ok m) ∧ (unpackMessage maxPtrHops ⟨msg, 0⟩).2.off = msg.length

/-- A record of the message begins at the offset. -/
def OwnerAt (msg : Bytes) (o : Nat) : Prop :=
  ∃ qs rs answersAt, Spread msg qs rs answersAt msg.length ∧ rs.length = recordCount msg ∧ o ∈ rs

theorem UnpacksWhole.spread (h : UnpacksWhole msg) : 12 ≤ msg.length ∧ ∃ qs rs answersAt,
    Spread msg qs rs answersAt msg.length ∧ rs.length = recordCount msg ∧ ∀ o ∈ qs, PlainName msg o := by
  obtain ⟨⟨m, hm⟩, hoff⟩ := h
  rw [Message.unpack, Message.unpackWith] at hm
  split at hm
  · cases hm
  · obtain ⟨-, hmsg, qs, rs, answersAt, hspread, hcount, hplain⟩ :=
      ensures_unpackMessage_over m (unpackMessage maxPtrHops ⟨msg, 0⟩).2 (Prod.ext hm rfl)
    rw [hoff] at hspread
    exact ⟨hmsg, qs, rs, answersAt, hspread, hcount, hplain⟩

/-- The time as the record has it. -/
def wholeSeconds (now : Int) : Int := now / second * second

/-- What `Sign` takes the MAC of. -/
def signedInput (msg : Bytes) (key : Key) (priorMAC : Option Bytes) (timersOnly : Bool) (now fudge : Int) : Bytes :=
  buildSigningInput msg key.name key.algorithm.name priorMAC (now / second).toNat
    (UInt16.ofNat (fudge / second).toNat) 0 [] timersOnly

/-- The payload that `Sign` writes. -/
def signedRData (msg : Bytes) (key : Key) (mac : Bytes) (now fudge : Int) : Bytes :=
  buildTSIGRData key.algorithm.name (now / second).toNat (UInt16.ofNat (fudge / second).toNat) mac
    (UInt16.ofNat (readAt 2 msg 0)) 0 []

/-- An algorithm that is enabled, and a time and a fudge that fit their fields. -/
structure Signable (key : Key) (now fudge : Int) : Prop where
  enabled : ¬(key.algorithm = .hmacSHA1 ∧ key.allowSHA1 = false)
  now_nonneg : 0 ≤ now
  now_lt : now < 2 ^ 48 * second
  fudge_nonneg : 0 ≤ fudge
  fudge_le : fudge ≤ 65535 * second

theorem Signable.timeSigned_lt (h : Signable key now fudge) : (now / second).toNat < 256 ^ 6 := by
  have hlow := h.now_nonneg
  have hhigh := h.now_lt
  have hlt : now / second < 2 ^ 48 := Int.ediv_lt_of_lt_mul (by decide) hhigh
  omega

theorem signWithPrefix_eq (h : Signable key now fudge) (hmsg : 12 ≤ msg.length) :
    signWithPrefix hmac msg key priorMAC timersOnly now fudge =
      .ok (withTSIG msg key (signedRData msg key (hmac key.algorithm key.secret
        (signedInput msg key priorMAC timersOnly now fudge)) now fudge),
        hmac key.algorithm key.secret (signedInput msg key priorMAC timersOnly now fudge)) := by
  have htime : (now / second % 2 ^ 64).toNat = (now / second).toNat := by
    have hlt := h.timeSigned_lt
    rw [Int.emod_eq_of_lt (Int.ediv_nonneg h.now_nonneg (by decide)) (by omega)]
  have hshort : ¬msg.length < 12 := by omega
  have hneg : ¬fudge < 0 := Int.not_lt.mpr h.fudge_nonneg
  have hmax : ¬fudge > 0xffff * second := Int.not_lt.mpr h.fudge_le
  have hread : ∀ rd, readAt 2 (appendTSIGRR msg key.name rd) 10 = readAt 2 msg 10 := by
    intro rd
    rw [appendTSIGRR_eq]
    exact Octets.readAt_congr ((Octets.coincide_append _ 10).mono (Nat.le_refl _) (by omega))
  simp only [signWithPrefix, bind, Except.bind, refuseIf, if_neg hshort, if_neg hneg, if_neg hmax, htime,
    computeHMAC, if_neg h.enabled, pure, Except.pure, hread]
  rfl

theorem isValid_algorithm (alg : Algorithm) : alg.name.isValid := by cases alg <;> decide

theorem length_appendWire_algorithm (alg : Algorithm) : (alg.name.appendWire []).length ≤ 13 := by
  cases alg <;> decide

theorem macSize_le (alg : Algorithm) : macSize alg ≤ 64 := by cases alg <;> decide

theorem minMACSize_le_macSize (alg : Algorithm) : minMACSize alg ≤ macSize alg := by cases alg <;> decide

theorem length_signedRData_lt {mac : Bytes} (hmac : mac.length ≤ 64) :
    (signedRData msg key mac now fudge).length < 65536 := by
  grind [length_appendWire_algorithm, signedRData, buildTSIGRData, Octets.length_bigEndian]

/-- Stripping undoes signing. -/
theorem stripTSIG_withTSIG {mac : Bytes} (h : Signable key now fudge) (hmsg : 12 ≤ msg.length)
    (harcount : readAt 2 msg 10 < 65535) (hmac : mac.length ≤ 64)
    (hstart : findLastRROffset (withTSIG msg key (signedRData msg key mac now fudge)) = .ok msg.length) :
    stripTSIG (withTSIG msg key (signedRData msg key mac now fudge)) = .ok (msg,
      { keyName := key.name, algorithm := key.algorithm.name, timeSigned := (now / second).toNat
        fudge := UInt16.ofNat (fudge / second).toNat, mac, origID := UInt16.ofNat (readAt 2 msg 0), errCode := 0
        other := [] }) := by
  obtain ⟨hname, htail⟩ := Octets.at_append.mp (@at_withTSIG msg (signedRData msg key mac now fudge) key hmsg)
  have howner := decodeName_eq_ok.mp (@decodeName_of_at _ _ _ "" key.valid hname)
  have hlen : 12 ≤ (withTSIG msg key (signedRData msg key mac now fudge)).length := by
    rw [withTSIG_eq hmsg, announced, length_append, Octets.length_writeAt (by omega)]
    omega
  have hbody : writeAt 2 ((withTSIG msg key (signedRData msg key mac now fudge)).take msg.length) 10
      (readAt 2 (withTSIG msg key (signedRData msg key mac now fudge)) 10 - 1) = msg := by
    have hfront : (announced msg).length = msg.length := Octets.length_writeAt (by omega)
    rw [readAt_ten_withTSIG hmsg harcount, withTSIG_eq hmsg, take_left' hfront, Nat.add_sub_cancel, announced,
      Octets.writeAt_writeAt_readAt (by omega)]
  rw [stripTSIG_of_at hlen (isValid_algorithm _) h.timeSigned_lt (by omega) (by decide) (length_signedRData_lt hmac)
    hstart howner htail, hbody]

theorem inWindow_of_near (hlow : -fudge ≤ now' - wholeSeconds now)
    (hhigh : now' - wholeSeconds now ≤ fudge) : InWindow now' (wholeSeconds now) fudge := by
  grind [InWindow, timeSub]

/-- What `sign` writes verifies. -/
theorem verifyWithPrefix_withTSIG
    (hsize : ∀ payload, (hmac key.algorithm key.secret payload).length = macSize key.algorithm)
    (hmsg : UnpacksWhole msg) (harcount : readAt 2 msg 10 < 65535) (h : Signable key now fudge)
    (hlow : -fudge ≤ now' - wholeSeconds now) (hhigh : now' - wholeSeconds now ≤ fudge)
    (howners : ∀ o, OwnerAt msg o → Decodes (announced msg) o) {mac out : Bytes}
    (hsign : signWithPrefix hmac msg key priorMAC timersOnly now fudge = .ok (out, mac)) :
    verifyWithPrefix hmac out key priorMAC timersOnly now' fudge = .ok (msg, mac, wholeSeconds now) := by
  obtain ⟨hlen, qs, rs, answersAt, hspread, hcount, hplain⟩ := hmsg.spread
  rw [signWithPrefix_eq h hlen] at hsign
  generalize hinput : signedInput msg key priorMAC timersOnly now fudge = input at hsign
  cases hsign
  have hshort : (hmac key.algorithm key.secret input).length ≤ 64 := by
    rw [hsize]
    exact macSize_le _
  have hfound := @findLastRROffset_withTSIG _ _ key _ _ _ hlen harcount
    (@length_signedRData_lt msg key now fudge _ hshort) hspread hcount hplain
    fun o ho => howners o ⟨_, _, _, hspread, hcount, ho⟩
  have horig : (UInt16.ofNat (readAt 2 msg 0)).toNat = readAt 2 msg 0 := by
    have hlt := Octets.readAt_lt 2 msg 0
    exact Decoder.toNat_ofNat16 (Nat.le_of_lt_succ hlt)
  have hsigned : ((now / second).toNat : Int) * second = wholeSeconds now := by
    rw [Int.toNat_of_nonneg (Int.ediv_nonneg h.now_nonneg (by decide)), wholeSeconds]
  refine verifyWithPrefix_eq_ok.mpr ⟨_, ⟨⟨msg, stripTSIG_withTSIG h hlen harcount hshort hfound, ?_⟩, rfl, rfl,
    h.enabled, ?_, ?_⟩, rfl, hsigned, inWindow_of_near hlow hhigh⟩
  · rw [horig, Octets.writeAt_readAt (by omega)]
  · rw [hsize]
    exact minMACSize_le_macSize _
  · rw [← hinput]
    exact prefix_refl _

theorem verify_eq_ok {body : Bytes} {signed : Int} : verify hmac msg key now fudge = .ok (body, signed) ↔
    ∃ mac, verifyWithPrefix hmac msg key none false now fudge = .ok (body, mac, signed) := by
  constructor
  · intro h
    obtain ⟨⟨body', mac, signed'⟩, hok, h⟩ := bind_ok h
    cases h
    exact ⟨mac, hok⟩
  · rintro ⟨mac, hok⟩
    rw [verify, hok]
    rfl

/-! ### A reply with a compressed owner, and one compressed into the header -/

def replyKey : Key := keyK

/-- A reply whose answer points to the question. -/
def reply : Bytes :=
  [0, 7, 0x84, 0, 0, 1, 0, 1, 0, 0, 0, 0, 1, 0x61, 0, 0, 1, 0, 1, 0xc0, 0x0c, 0, 1, 0, 1, 0, 0, 0, 0, 0, 4, 10, 0, 0, 1]

/-- A reply whose owner points into the header. -/
def headerReply : Bytes :=
  [0, 7, 0x84, 0, 0, 0, 0, 1, 0, 0, 0, 0, 0xc0, 0x0b, 0, 1, 0, 1, 0, 0, 0, 0, 0, 4, 10, 0x80, 0, 1]

def replyTime : Int := 300 * second

def replyMAC : Bytes := bigEndian 32 0x554e27741a6fa49c139fff1415bebb081946622077a26afb9bdc59649758f7e9

def replyHMAC : Algorithm → Bytes → Bytes → Bytes := fun _ _ payload =>
  if payload = signedInput reply replyKey none false replyTime replyTime then replyMAC
  else if payload = signedInput reply replyKey (some replyMAC) false replyTime replyTime then
    bigEndian 32 0x9ac31a83de70432d79591a85e6955d57e15775a2d2e79e5a0b4ab5faa0c57ffc
  else if payload = signedInput reply replyKey (some replyMAC) true replyTime replyTime then
    bigEndian 32 0x69ed375c9ad0dbb89a0f30718787a0d105d61b89f9cc44b640f05572010f04e4
  else if payload = signedInput headerReply replyKey none false replyTime replyTime then
    bigEndian 32 0x1960a5704d5f92938780116a7ebfb6baddd1dbb304f21511ba2bb1fd7a33baf2
  else bigEndian 32 0

theorem length_replyHMAC (alg : Algorithm) (secret payload : Bytes) : (replyHMAC alg secret payload).length = 32 := by
  rw [replyHMAC]
  split_ifs <;> simp [replyMAC]

theorem signable_reply : Signable replyKey replyTime replyTime := by
  constructor <;> decide

theorem ownerAt_reply {o : Nat} (h : OwnerAt reply o) : o = 19 := by
  obtain ⟨qs, rs, answersAt, hspread, hcount, ho⟩ := h
  have hname : Labels.Inline [1, 0x61, 0] := @Labels.Inline.label [0x61] [0] (by decide) .root
  have hword : [1, 0x61, 0, 0, 1, 0, 1] ∈ questionWords := ⟨_, hname, [0, 1, 0, 1], rfl, rfl⟩
  have hat : At reply 12 [1, 0x61, 0, 0, 1, 0, 1] := ⟨_, rfl⟩
  obtain ⟨-, rfl⟩ := hspread.questions.unique prefixFree_questionWords (.cons hword hat .nil) hspread.qdcount
  obtain ⟨r, rfl⟩ := length_eq_one_iff.mp hcount
  cases hspread.records
  exact mem_singleton.mp ho

/-- **Sign, then verify.** Signing a message that `Unpack` takes up whole succeeds, and the verifier with the same key
and prior MAC returns the message and the time if the owners of its records can still be read once one more additional
record is announced in the header. -/
theorem verify_sign {prior : Bytes}
    (hsize : ∀ payload, (hmac key.algorithm key.secret payload).length = macSize key.algorithm)
    (hmsg : UnpacksWhole msg) (harcount : readAt 2 msg 10 < 65535) (h : Signable key now fudge)
    (hlow : -fudge ≤ now' - wholeSeconds now) (hhigh : now' - wholeSeconds now ≤ fudge) (hprior : prior ≠ [])
    (howners : ∀ o, OwnerAt msg o → Decodes (announced msg) o) :
    (∃ out, sign hmac msg key now fudge = .ok out ∧ verify hmac out key now' fudge = .ok (msg, wholeSeconds now)) ∧
    (∃ out, signResponse hmac msg key prior now fudge = .ok out ∧
      ∃ mac, verifyResponse hmac out key prior now' fudge = .ok (msg, mac, wholeSeconds now)) ∧
    ∃ out mac, signAXFRChunk hmac msg key prior now fudge = .ok (out, mac) ∧
      verifyAXFRChunk hmac out key prior now' fudge = .ok (msg, mac, wholeSeconds now) := by
  obtain ⟨hlen, -⟩ := hmsg.spread
  have hcheck : ∀ e : TsigError, refuseIf (prior = []) e = .ok () := fun e => refuseIf_ok.mpr hprior
  refine ⟨⟨_, by rw [sign, signWithPrefix_eq h hlen]; rfl, ?_⟩, ⟨_, by
    rw [signResponse, hcheck, signWithPrefix_eq h hlen]; rfl, ?_⟩, ⟨_, _, by
    rw [signAXFRChunk, hcheck, signWithPrefix_eq h hlen]; rfl, ?_⟩⟩
  · rw [verify_eq_ok]
    exact ⟨_, verifyWithPrefix_withTSIG hsize hmsg harcount h hlow hhigh howners (signWithPrefix_eq h hlen)⟩
  · rw [verifyResponse, hcheck]
    exact ⟨_, verifyWithPrefix_withTSIG hsize hmsg harcount h hlow hhigh howners (signWithPrefix_eq h hlen)⟩
  · rw [verifyAXFRChunk, hcheck]
    exact verifyWithPrefix_withTSIG hsize hmsg harcount h hlow hhigh howners (signWithPrefix_eq h hlen)

end RoundTrip

theorem verify_sign_reply :
    (∃ out, sign replyHMAC reply replyKey replyTime replyTime = .ok out ∧
      verify replyHMAC out replyKey (301 * second) replyTime = .ok (reply, wholeSeconds replyTime)) ∧
    (∃ out, signResponse replyHMAC reply replyKey replyMAC replyTime replyTime = .ok out ∧
      ∃ mac, verifyResponse replyHMAC out replyKey replyMAC (301 * second) replyTime =
        .ok (reply, mac, wholeSeconds replyTime)) ∧
    ∃ out mac, signAXFRChunk replyHMAC reply replyKey replyMAC replyTime replyTime = .ok (out, mac) ∧
      verifyAXFRChunk replyHMAC out replyKey replyMAC (301 * second) replyTime =
        .ok (reply, mac, wholeSeconds replyTime) := by
  have hmsg : UnpacksWhole reply := ⟨⟨_, rfl⟩, by decide +kernel⟩
  refine verify_sign (length_replyHMAC _ _) hmsg (by decide +kernel) signable_reply (by decide) (by decide)
    (by decide) fun o ho => ?_
  obtain rfl := ownerAt_reply ho
  exact ⟨Name.Short.a, 21, by decide +kernel⟩

/-- **A signed reply is refused.** In the signed message the octet of a root owner is the length of a label. And no
message is found to be signed with a key whose name has an upper-case letter, which `Parse` makes of a decimal escape.
-/
theorem verify_sign_headerReply :
    (UnpacksWhole headerReply ∧ readAt 2 headerReply 10 < 65535 ∧
      (sign replyHMAC headerReply replyKey replyTime replyTime).isOk = true ∧
      (sign replyHMAC headerReply replyKey replyTime replyTime).bind
        (fun out => verify replyHMAC out replyKey replyTime replyTime) =
          .error ⟨.wire, "wirebb: invalid name: reserved label type 0x80"⟩) ∧
    ∃ n, parse (ascii "\\065.") = .ok n ∧
      ∀ out stripped tsig, stripTSIG out = .ok (stripped, tsig) → n.equal ⟨tsig.keyName.wire⟩ = false := by
  refine ⟨⟨⟨⟨_, rfl⟩, by decide +kernel⟩, by decide +kernel, by decide +kernel, by decide +kernel⟩,
    ⟨[1, 0x41, 0]⟩, by decide, ?_⟩
  intro out stripped tsig _
  rw [RawName.equal, decide_eq_false_iff_not]
  intro heq
  have hinv := tsig.keyName.inv
  rw [show tsig.keyName.wire = [1, 0x41, 0] from heq.symm] at hinv
  exact absurd hinv (by decide)

end Acidns.Tsig
