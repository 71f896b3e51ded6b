import Acidns.Wire.Edns
import Acidns.Lib.Program

/-!
# Messages

`flags.go`, `errors.go` and `dnsmsg.go`: the header, the four sections and the OPT pseudo-record, and
`Pack` and `Unpack` of whole messages. `Unpack` is stated for any bound on pointer hops; the source
has `maxPtrHops`.
-/

namespace Acidns

open Parser Decoder List
open Octets (At bigEndian)

/-! ### Flags -/

/-- The four bits of the header, in a byte. -/
abbrev Opcode := UInt8

namespace Opcode

def query : Opcode := 0
def notify : Opcode := 4
def update : Opcode := 5

end Opcode

/-- The response code of the header. -/
abbrev RCODE := UInt8

namespace RCODE

def noError : RCODE := 0
def formErr : RCODE := 1
def servFail : RCODE := 2
def nxDomain : RCODE := 3
def notImp : RCODE := 4
def refused : RCODE := 5
def yxDomain : RCODE := 6
def yxRRSet : RCODE := 7
def nxRRSet : RCODE := 8
def notAuth : RCODE := 9
def notZone : RCODE := 10

end RCODE

/-- The second word of the header. -/
abbrev Flags := UInt16

namespace Flags

def qr : UInt16 := 0x8000
def aa : UInt16 := 0x0400
def tc : UInt16 := 0x0200
def rd : UInt16 := 0x0100
def ra : UInt16 := 0x0080
def ad : UInt16 := 0x0020
def cd : UInt16 := 0x0010

/-- QR is set. -/
def response (f : Flags) : Bool := f &&& qr ≠ 0
def opcode (f : Flags) : Opcode := (f >>> 11 &&& 0x0f).toUInt8
/-- AA is set. -/
def authoritative (f : Flags) : Bool := f &&& aa ≠ 0
/-- TC is set. -/
def truncated (f : Flags) : Bool := f &&& tc ≠ 0
/-- RD is set. -/
def recursionDesired (f : Flags) : Bool := f &&& rd ≠ 0
/-- AD is set. -/
def authenticData (f : Flags) : Bool := f &&& ad ≠ 0
/-- CD is set. -/
def checkingDisabled (f : Flags) : Bool := f &&& cd ≠ 0
def rcode (f : Flags) : RCODE := (f &&& 0x0f).toUInt8

/-- The word with one bit set or cleared. -/
def setBit (f : Flags) (mask : UInt16) (on : Bool) : Flags := if on then f ||| mask else f &&& ~~~mask

def withResponse (f : Flags) (v : Bool) : Flags := setBit f qr v
def withAuthoritative (f : Flags) (v : Bool) : Flags := setBit f aa v
def withRecursionDesired (f : Flags) (v : Bool) : Flags := setBit f rd v
def withRecursionAvailable (f : Flags) (v : Bool) : Flags := setBit f ra v
def withAuthenticData (f : Flags) (v : Bool) : Flags := setBit f ad v
def withCheckingDisabled (f : Flags) (v : Bool) : Flags := setBit f cd v

/-- Only the low four bits of the opcode are used. -/
def withOpcode (f : Flags) (o : Opcode) : Flags := (f &&& (0x87ff : UInt16)) ||| (o &&& 0x0f).toUInt16 <<< 11
/-- The extended part of a response code is not kept here. -/
def withRCODE (f : Flags) (r : RCODE) : Flags := (f &&& (0xfff0 : UInt16)) ||| (r &&& 0x0f).toUInt16

end Flags

/-! ### Messages -/

/-- A message, with its OPT record apart from the additional section. -/
structure Message where
  id : UInt16
  flags : Flags
  questions : List Question
  answers : List Record
  authorities : List Record
  additionals : List Record
  /-- The OPT pseudo-record, which is not among the additional records. -/
  edns : Option EDNS
  deriving DecidableEq

/-- The part of a message that an error points at. -/
inductive MessageSection where
  | header
  | question
  | answer
  | authority
  | additional
  | opt
  deriving DecidableEq

/-- The section as the text of an error has it. -/
def MessageSection.string : MessageSection → String
  | header => "header"
  | question => "question"
  | answer => "answer"
  | authority => "authority"
  | additional => "additional"
  | opt => "opt"

/-- Where a message stopped being readable, and why. -/
structure MessageParseError where
  section_ : MessageSection
  index : Int
  offset : Nat
  cause : WireError
  deriving DecidableEq

/-- `Error`. -/
def MessageParseError.message (e : MessageParseError) : String :=
  let item := if e.index < 0 then e.section_.string else s!"{e.section_.string}[{e.index}]"
  s!"wire: parse {item} at offset {e.offset}: {e.cause.message}"

/-! ### Packing -/

namespace Message

/-- The OPT record counts among the additionals. -/
def arcount (m : Message) : Nat := m.additionals.length + if m.edns.isSome then 1 else 0

/-- The twelve bytes of the header. -/
def headerOps (m : Message) : List PackOp :=
  [.uint16 m.id, .uint16 m.flags, .uint16 (UInt16.ofNat m.questions.length),
    .uint16 (UInt16.ofNat m.answers.length), .uint16 (UInt16.ofNat m.authorities.length),
    .uint16 (UInt16.ofNat m.arcount)]

def packEdns (p : Packer) : Option EDNS → Except WireError Packer
  | some e => packOPT p e
  | none => .ok p

/-- The counts are checked before anything is written. -/
def pack (m : Message) : Except WireError Bytes :=
  if m.questions.length > 0xffff ∨ m.answers.length > 0xffff ∨ m.authorities.length > 0xffff ∨
      m.additionals.length > 0xffff then
    .error (invalidMessage "section count overflow")
  else do
    let p := Packer.new.run m.headerOps
    let p := p.run (m.questions.flatMap Question.ops)
    let p ← m.answers.foldlM packRecord p
    let p ← m.authorities.foldlM packRecord p
    let p ← m.additionals.foldlM packRecord p
    let p ← packEdns p m.edns
    if p.len > 0xffff then
      .error (invalidMessage s!"message {p.len} bytes exceeds wire limit (65535)")
    else .ok p.buf

end Message

/-! ### Unpacking -/

/-- The operations of `Unpack`, whose errors name the section and the item. -/
abbrev MessageDecoder := Parser Nat MessageParseError

/-- An error in the `i`-th item of a section; `-1` when there is no item. -/
def itemError (section_ : MessageSection) (i : Int) (off : Nat) (cause : WireError) : MessageParseError :=
  ⟨section_, i, off, cause⟩

def unpackQuestions (n : Nat) : MessageDecoder (List Question) :=
  iterate (fun i => collect (mapError (itemError .question i) unpackQuestion)) n 0 []

/-- The records of one section. -/
def unpackRRs (section_ : MessageSection) (n : Nat) : MessageDecoder (List Record) :=
  iterate (fun i => collect (mapError (itemError section_ i) unpackRecord)) n 0 []

/-- An OPT record is set aside; a second one is refused. -/
def unpackAdditional (i : Nat) (s : List Record × Option EDNS) : MessageDecoder (List Record × Option EDNS) := do
  let save ← offset
  let _ ← mapError (itemError .additional i) name
  let t ← mapError (itemError .additional i) uint16
  setOffset save
  if t = optTypeWire then do
    failIf s.2.isSome (itemError .opt i save ⟨.plain, "multiple OPT pseudo-RRs"⟩)
    let e ← mapError (itemError .opt i) unpackOPT
    pure (s.1, some e)
  else do
    let r ← mapError (itemError .additional i) unpackRecord
    pure (s.1 ++ [r], s.2)

def unpackSections (id : UInt16) (flags : Flags) (qdcount ancount nscount arcount : Nat) :
    MessageDecoder Message := do
  let questions ← unpackQuestions qdcount
  let answers ← unpackRRs .answer ancount
  let authorities ← unpackRRs .authority nscount
  let (additionals, edns) ← iterate unpackAdditional arcount 0 ([], none)
  pure ⟨id, flags, questions, answers, authorities, additionals, edns⟩

/-- A message from its header to its last additional record. -/
def unpackMessage : MessageDecoder Message := do
  let header := mapError (itemError .header (-1)) uint16
  let id ← header
  let flags ← header
  let qdcount ← header
  let ancount ← header
  let nscount ← header
  let arcount ← header
  unpackSections id flags qdcount.toNat ancount.toNat nscount.toNat arcount.toNat

namespace Message

/-- `Message.unpack` under any bound on the pointers of a name. -/
def unpackWith (maxHops : Nat) (buf : Bytes) : Except MessageParseError Message :=
  if buf.length < 12 then
    .error (itemError .header (-1) buf.length ⟨.plain, s!"header too short ({buf.length} bytes)"⟩)
  else (unpackMessage maxHops ⟨buf, 0⟩).1

/-- The exported decoder: at most `maxPtrHops` pointers for one name. -/
def unpack (buf : Bytes) : Except MessageParseError Message := unpackWith maxPtrHops buf

/-- The message as its receiver sees it, with TTLs in whole seconds. -/
def sent (m : Message) : Message :=
  { m with
    questions := m.questions.map Question.sent
    answers := m.answers.map Record.sent
    authorities := m.authorities.map Record.sent
    additionals := m.additionals.map Record.sent }

end Message

/-! ### What packing leaves behind -/

/-- The calls that `packRecord` makes, with the length of the rdata left open. -/
def Record.layoutOps (r : Record) : List PackOp := r.head ++ [.uint16 0] ++ r.rd.ops

namespace Message

/-- The calls that place the message, with the lengths of rdata left open. -/
def layoutOps (m : Message) : List PackOp :=
  m.headerOps ++ m.questions.flatMap Question.ops ++ m.answers.flatMap Record.layoutOps ++
    m.authorities.flatMap Record.layoutOps ++ m.additionals.flatMap Record.layoutOps

/-- For every compressed name, the pointers that follow from it. -/
def hops (m : Message) : List Nat := (Layout.empty.run m.layoutOps).2

end Message

section Pack

variable {p q : Packer} {lay : Layout} {rs : List Record} {m : Message} {buf : Bytes}

theorem packRecords_spec (htracks : Tracks p lay) (h : rs.foldlM packRecord p = .ok q) :
    p.buf <+: q.buf ∧ Tracks q (lay.run (rs.flatMap Record.layoutOps)).1 ∧
      ∀ msg, q.buf <+: msg → Sequence (Record.LaidOut msg) p.buf.length rs
        (lay.run (rs.flatMap Record.layoutOps)).2 q.buf.length := by
  induction rs generalizing p lay with
  | nil =>
    cases h
    exact ⟨prefix_refl _, htracks, fun _ _ => .nil⟩
  | cons r rs ih =>
    rw [foldlM_cons] at h
    cases hr : packRecord p r with
    | error e =>
      rw [hr] at h
      cases h
    | ok p' =>
      rw [hr] at h
      obtain ⟨hgrow, htracks', hlaid⟩ := packRecord_spec htracks hr
      obtain ⟨hgrow', htracks'', hlaid'⟩ := ih htracks' h
      rw [flatMap_cons, Layout.run_append]
      exact ⟨hgrow.trans hgrow', htracks'', fun msg hmsg =>
        .cons (hlaid msg (hgrow'.trans hmsg)) (hlaid' msg hmsg)⟩

theorem Laid.sequence {ι : Type} {msg : Bytes} {ops : ι → List PackOp} {xs : List ι} {off off' : Nat}
    {hops : List Nat} (h : Laid msg off (xs.flatMap ops) hops off') :
    Sequence (fun o x ks o' => Laid msg o (ops x) ks o') off xs hops off' := by
  induction xs generalizing off hops with
  | nil =>
    obtain ⟨rfl, rfl⟩ := laid_nil.mp h
    exact .nil
  | cons x xs ih =>
    obtain ⟨mid, front, back, rfl, hfront, hback⟩ := h.append_inv
    exact .cons hfront (ih hback)

/-- Where the parts of a message stand in its bytes. -/
structure Message.LaidOut (msg : Bytes) (m : Message) where
  (questionsAt answersAt authoritiesAt additionalsAt optAt : Nat)
  (answerHops authorityHops additionalHops : List Nat)
  hops : m.hops = answerHops ++ authorityHops ++ additionalHops
  header : Laid msg 0 m.headerOps [] questionsAt
  questions : Sequence (fun o q ks o' => Laid msg o (Question.ops q) ks o') questionsAt m.questions [] answersAt
  answers : Sequence (Record.LaidOut msg) answersAt m.answers answerHops authoritiesAt
  authorities : Sequence (Record.LaidOut msg) authoritiesAt m.authorities authorityHops additionalsAt
  additionals : Sequence (Record.LaidOut msg) additionalsAt m.additionals additionalHops optAt
  edns : ∀ e, m.edns = some e → EDNS.LaidOut msg optAt e msg.length
  optAt_le : optAt ≤ msg.length

/-- What packing succeeds on, and where it puts the parts. -/
theorem Message.pack_ok (h : m.pack = .ok buf) :
    m.questions.length ≤ 0xffff ∧ m.answers.length ≤ 0xffff ∧ m.authorities.length ≤ 0xffff ∧
      m.additionals.length ≤ 0xffff ∧ buf.length ≤ 0xffff ∧ Nonempty (m.LaidOut buf) := by
  rw [Message.pack] at h
  split at h
  · cases h
  obtain ⟨pa, hanswers, h⟩ := bind_ok h
  obtain ⟨pn, hauthorities, h⟩ := bind_ok h
  obtain ⟨pd, hadditionals, h⟩ := bind_ok h
  obtain ⟨pe, hedns, h⟩ := bind_ok h
  split at h
  · cases h
  rename_i hmax
  cases h
  -- follow the layout through the sections
  obtain ⟨-, htracks, hheader⟩ := @laid_run Packer.new Layout.empty m.headerOps tracks_new
  obtain ⟨hgrowq, htracksq, hquestions⟩ := @laid_run _ _ (m.questions.flatMap Question.ops) htracks
  obtain ⟨hgrowa, htracksa, hanswers⟩ := packRecords_spec htracksq hanswers
  obtain ⟨hgrown, htracksn, hauthorities⟩ := packRecords_spec htracksa hauthorities
  obtain ⟨hgrowd, htracksd, hadditionals⟩ := packRecords_spec htracksn hadditionals
  have hopt : pd.buf <+: pe.buf ∧ ∀ e, m.edns = some e →
      EDNS.LaidOut pe.buf pd.buf.length e pe.buf.length := by
    rw [Message.packEdns.eq_def] at hedns
    split at hedns
    · grind [packOPT_spec]
    · rename_i heq
      cases hedns
      exact ⟨prefix_refl _, fun e' he' => absurd (heq.symm.trans he') nofun⟩
  obtain ⟨hgrowe, hlaid⟩ := hopt
  have hplainHeader : (Layout.empty.run m.headerOps).2 = [] :=
    Layout.run_plain (by simp [Message.headerOps, PackOp.compressed])
  have hplainQuestions : ∀ lay : Layout, (lay.run (m.questions.flatMap Question.ops)).2 = [] := fun lay =>
    Layout.run_plain fun op hop => by
      obtain ⟨q, -, hop⟩ := mem_flatMap.mp hop
      exact q.plain_ops op hop
  rw [hplainQuestions] at hquestions
  refine ⟨by omega, by omega, by omega, by omega, Nat.not_lt.mp hmax, ⟨{
    questionsAt := _, answersAt := _, authoritiesAt := _, additionalsAt := _, optAt := _
    answerHops := _, authorityHops := _, additionalHops := _
    header := hheader pe.buf (hgrowq.trans (hgrowa.trans (hgrown.trans (hgrowd.trans hgrowe))))
    questions := (hquestions pe.buf (hgrowa.trans (hgrown.trans (hgrowd.trans hgrowe)))).sequence
    answers := hanswers pe.buf (hgrown.trans (hgrowd.trans hgrowe))
    authorities := hauthorities pe.buf (hgrowd.trans hgrowe)
    additionals := hadditionals pe.buf hgrowe
    edns := hlaid
    optAt_le := hgrowe.length_le
    hops := ?_ }⟩⟩
  simp only [Message.hops, Message.layoutOps, Layout.run_append, hplainHeader, hplainQuestions, nil_append]

end Pack

/-! ### Reading it back -/

namespace Message

/-- The parts are as `Unpack` returns them; questions and TTLs may be as an application builds them. -/
structure Normal (m : Message) : Prop where
  questions : ∀ q ∈ m.questions, q.name.isValid ∧ (q.rawName.length > 0 → q.Spelled)
  answers : ∀ r ∈ m.answers, r.Normal
  authorities : ∀ r ∈ m.authorities, r.Normal
  additionals : ∀ r ∈ m.additionals, r.Normal ∧ r.type ≠ optTypeWire
  edns : ∀ e, m.edns = some e → e.Normal

end Message

section Unpack

variable {maxHops off off' : Nat} {msg : Bytes} {hops : List Nat} {rs : List Record} {m : Message}
  {section_ : MessageSection}

section

variable (hrs : ∀ r ∈ rs, r.Normal) (h : Sequence (Record.LaidOut msg) off rs hops off')

include hrs h

theorem reads_unpackRRs (hhops : ∀ hop ∈ hops, hop ≤ maxHops) :
    (unpackRRs section_ rs.length).Reads maxHops msg off (rs.map Record.sent) off' :=
  reads_iterate_collect Record.sent h hhops
    (fun r hr _ _ _ _ hlaid hks => reads_mapError (reads_unpackRecord (hrs r hr) hlaid hks)) 0

theorem fails_unpackRRs (hhops : ∃ hop ∈ hops, ¬hop ≤ maxHops) :
    (unpackRRs section_ rs.length).Fails maxHops ⟨msg, off⟩ := by
  have hread : ∀ r ∈ rs, ∀ i out o o' ks, Record.LaidOut msg o r ks o' → (∀ hop ∈ ks, hop ≤ maxHops) →
      (collect (mapError (itemError section_ i) unpackRecord) out).Reads maxHops msg o (out ++ [r.sent]) o' :=
    fun r hr i out o o' ks hlaid hks =>
      .bind (reads_mapError (reads_unpackRecord (hrs r hr) hlaid hks)) (reads_pure _)
  refine fails_iterate h hhops (fun r hr i => hread r hr i) ?_ 0 []
  intro r hr i out o o' ks hlaid hks
  exact Fails.bind (fails_mapError (fails_unpackRecord (hrs r hr) hlaid hks))

end

theorem reads_unpackQuestions {qs : List Question}
    (hqs : ∀ q ∈ qs, q.name.isValid ∧ (q.rawName.length > 0 → q.Spelled))
    (h : Sequence (fun o q ks o' => Laid msg o (Question.ops q) ks o') off qs [] off') :
    (unpackQuestions qs.length).Reads maxHops msg off (qs.map Question.sent) off' :=
  reads_iterate_collect Question.sent h (show ∀ k ∈ ([] : List Nat), True from fun _ _ => trivial)
    (fun q hq _ _ _ _ hlaid _ => reads_mapError (reads_unpackQuestion (hqs q hq).1 (hqs q hq).2 hlaid)) 0

section

variable {r : Record} (hr : r.Normal) (htype : r.type ≠ optTypeWire) (h : Record.LaidOut msg off r hops off')

include hr htype h

theorem reads_unpackAdditional (hhops : ∀ hop ∈ hops, hop ≤ maxHops) (i : Nat) (s : List Record × Option EDNS) :
    (unpackAdditional i s).Reads maxHops msg off (s.1 ++ [r.sent], s.2) off' := by
  obtain ⟨hop, next, hmem, hname, ht⟩ := h.peek
  refine .bind reads_offset <| .bind (reads_mapError (reads_name hr.1 hname (hhops hop hmem))) <|
    .bind (reads_mapError (reads_uint16 ht)) <| .bind reads_setOffset ?_
  rw [if_neg htype]
  exact .bind (reads_mapError (reads_unpackRecord hr h hhops)) (reads_pure _)

theorem fails_unpackAdditional (hhops : ∃ hop ∈ hops, ¬hop ≤ maxHops) (i : Nat) (s : List Record × Option EDNS) :
    (unpackAdditional i s).Fails maxHops ⟨msg, off⟩ := by
  obtain ⟨hop, next, hmem, hname, ht⟩ := h.peek
  refine Reads.bind_fails reads_offset ?_
  by_cases hhop : hop ≤ maxHops
  · refine Reads.bind_fails (reads_mapError (reads_name hr.1 hname hhop)) <|
      Reads.bind_fails (reads_mapError (reads_uint16 ht)) <| Reads.bind_fails reads_setOffset ?_
    rw [if_neg htype]
    exact Fails.bind (fails_mapError (fails_unpackRecord hr h hhops))
  · exact Fails.bind (fails_mapError (fails_name hr.1 hname (Nat.not_le.mp hhop)))

end

theorem reads_unpackAdditional_opt {e : EDNS} (he : e.Normal) (h : EDNS.LaidOut msg off e off') (i : Nat)
    {rs : List Record} : (unpackAdditional i (rs, none)).Reads maxHops msg off (rs, some e) off' := by
  obtain ⟨rdlen, hname, htype, -⟩ := h.inv
  have hroot : name.Reads maxHops msg off Name.root (off + 1) :=
    reads_name (by decide) (.root hname) (Nat.zero_le _)
  refine .bind reads_offset <| .bind (reads_mapError hroot) <|
    .bind (reads_mapError (reads_uint16 htype)) <| .bind reads_setOffset ?_
  exact .bind (reads_failIf (by simp)) <| .bind (reads_mapError (reads_unpackOPT he h)) (reads_pure _)

theorem reads_additionalRecords (hrs : ∀ r ∈ rs, r.Normal ∧ r.type ≠ optTypeWire)
    (h : Sequence (Record.LaidOut msg) off rs hops off') (hhops : ∀ hop ∈ hops, hop ≤ maxHops) :
    (iterate unpackAdditional rs.length 0 ([], none)).Reads maxHops msg off (rs.map Record.sent, none) off' := by
  have hrecords : (iterate unpackAdditional rs.length 0 ([], none)).Reads maxHops msg off
      (rs.foldl (fun s r => (s.1 ++ [r.sent], s.2)) ([], none)) off' :=
    reads_iterate h hhops (fun r hr i s o o' ks hlaid hks =>
      reads_unpackAdditional (hrs r hr).1 (hrs r hr).2 hlaid hks i s) 0 _
  have hfold : ∀ (rs : List Record) (s : List Record × Option EDNS),
      rs.foldl (fun s r => (s.1 ++ [r.sent], s.2)) s = (s.1 ++ rs.map Record.sent, s.2) := fun rs => by
    induction rs with
    | nil => simp
    | cons r rs ih => intro s; rw [foldl_cons, ih, map_cons, append_assoc, singleton_append]
  rwa [hfold, nil_append] at hrecords

theorem reads_unpackAdditionals (hm : m.Normal) (h : m.LaidOut msg)
    (hhops : ∀ hop ∈ h.additionalHops, hop ≤ maxHops) :
    ∃ off', (iterate unpackAdditional m.arcount 0 ([], none)).Reads maxHops msg h.additionalsAt
      (m.additionals.map Record.sent, m.edns) off' := by
  have hrecords := reads_additionalRecords hm.additionals h.additionals hhops
  cases hedns : m.edns with
  | none => exact ⟨_, by simpa [Message.arcount, hedns] using hrecords⟩
  | some e =>
    refine ⟨msg.length, ?_⟩
    simp only [Message.arcount, hedns, Option.isSome_some, if_true]
    rw [iterate_succ]
    exact .bind hrecords (reads_unpackAdditional_opt (hm.edns e hedns) (h.edns e hedns) _)

theorem fails_unpackAdditionals (hm : m.Normal) (h : m.LaidOut msg)
    (hhops : ∃ hop ∈ h.additionalHops, ¬hop ≤ maxHops) :
    (iterate unpackAdditional m.arcount 0 ([], none)).Fails maxHops ⟨msg, h.additionalsAt⟩ := by
  have hrecords : (iterate unpackAdditional m.additionals.length 0 ([], none)).Fails maxHops
      ⟨msg, h.additionalsAt⟩ :=
    fails_iterate h.additionals hhops
      (fun r hr i s o o' ks hlaid hks =>
        reads_unpackAdditional (hm.additionals r hr).1 (hm.additionals r hr).2 hlaid hks i s)
      (fun r hr i s o o' ks hlaid hks =>
        fails_unpackAdditional (hm.additionals r hr).1 (hm.additionals r hr).2 hlaid hks i s) 0 _
  cases hedns : m.edns with
  | none => simpa [Message.arcount, hedns] using hrecords
  | some e =>
    simp only [Message.arcount, hedns, Option.isSome_some, if_true]
    rw [iterate_succ]
    exact Fails.bind hrecords

theorem Message.header_words {questionsAt : Nat} (h : Laid msg 0 m.headerOps [] questionsAt) :
    At msg 0 (bigEndian 2 m.id.toNat) ∧ At msg 2 (bigEndian 2 m.flags.toNat) ∧
      At msg 4 (bigEndian 2 (UInt16.ofNat m.questions.length).toNat) ∧
      At msg 6 (bigEndian 2 (UInt16.ofNat m.answers.length).toNat) ∧
      At msg 8 (bigEndian 2 (UInt16.ofNat m.authorities.length).toNat) ∧
      At msg 10 (bigEndian 2 (UInt16.ofNat m.arcount).toNat) ∧ questionsAt = 12 := by
  grind [headerOps, laid_uint16, laid_nil]

theorem Message.LaidOut.le_additionalsAt (h : m.LaidOut msg) : 12 ≤ h.additionalsAt := by
  have hrecord : ∀ o r ks o', Record.LaidOut msg o r ks o' → o ≤ o' := fun o r ks o' hr => by
    have hlt := hr.lt
    omega
  have hq := h.questions.le fun o q ks o' hq => hq.le
  have ha := h.answers.le hrecord
  have hn := h.authorities.le hrecord
  have hstart := (Message.header_words h.header).2.2.2.2.2.2
  omega

theorem Message.LaidOut.arcount_le (h : m.LaidOut msg) (hmax : msg.length ≤ 0xffff) : m.arcount ≤ 0xffff := by
  have hlen := h.additionals.length_le fun o r ks o' hr => Nat.lt_of_le_of_lt (Nat.le_add_right o 10) hr.lt
  have hopt := h.optAt_le
  have hpos := h.le_additionalsAt
  rw [Message.arcount]
  split <;> omega

variable {buf : Bytes}

theorem Message.unpackWith_of_header {questionsAt : Nat} (hheader : Laid msg 0 m.headerOps [] questionsAt)
    (hq : m.questions.length ≤ 0xffff) (ha : m.answers.length ≤ 0xffff) (hn : m.authorities.length ≤ 0xffff)
    (hd : m.arcount ≤ 0xffff) : unpackWith maxHops msg = (unpackSections m.id m.flags m.questions.length
      m.answers.length m.authorities.length m.arcount maxHops ⟨msg, questionsAt⟩).1 := by
  obtain ⟨hid, hflags, hqd, han, hns, har, rfl⟩ := Message.header_words hheader
  have hshort : ¬msg.length < 12 := by
    have hend := har.end_le (ne_nil_of_length_pos (by simp))
    rw [Octets.length_bigEndian] at hend
    omega
  rw [unpackWith, if_neg hshort, unpackMessage, (reads_mapError (reads_uint16 hid)).bind_eq,
    (reads_mapError (reads_uint16 hflags)).bind_eq, (reads_mapError (reads_uint16 hqd)).bind_eq,
    (reads_mapError (reads_uint16 han)).bind_eq, (reads_mapError (reads_uint16 hns)).bind_eq,
    (reads_mapError (reads_uint16 har)).bind_eq, toNat_ofNat16 hq, toNat_ofNat16 ha, toNat_ofNat16 hn,
    toNat_ofNat16 hd]

theorem Message.LaidOut.unpackWith_eq (hlaid : m.LaidOut msg) (hq : m.questions.length ≤ 0xffff)
    (ha : m.answers.length ≤ 0xffff) (hn : m.authorities.length ≤ 0xffff) (hd : m.arcount ≤ 0xffff) :
    unpackWith maxHops msg = (unpackSections m.id m.flags m.questions.length m.answers.length
      m.authorities.length m.arcount maxHops ⟨msg, hlaid.questionsAt⟩).1 :=
  Message.unpackWith_of_header hlaid.header hq ha hn hd

theorem Message.unpackWith_of_pack (h : m.pack = .ok buf) : ∃ hlaid : m.LaidOut buf,
    unpackWith maxHops buf = (unpackSections m.id m.flags m.questions.length m.answers.length
      m.authorities.length m.arcount maxHops ⟨buf, hlaid.questionsAt⟩).1 := by
  obtain ⟨hq, ha, hn, -, hmax, ⟨hlaid⟩⟩ := Message.pack_ok h
  exact ⟨hlaid, hlaid.unpackWith_eq hq ha hn (hlaid.arcount_le hmax)⟩

theorem Message.LaidOut.reads_unpackSections (hlaid : m.LaidOut msg) (hm : m.Normal)
    (hhops : ∀ hop ∈ m.hops, hop ≤ maxHops) :
    ∃ off', (unpackSections m.id m.flags m.questions.length m.answers.length m.authorities.length
      m.arcount).Reads maxHops msg hlaid.questionsAt m.sent off' := by
  rw [hlaid.hops, forall_mem_append, forall_mem_append] at hhops
  obtain ⟨⟨ha, hn⟩, hd⟩ := hhops
  obtain ⟨off', hadditionals⟩ := reads_unpackAdditionals hm hlaid hd
  exact ⟨off', .bind (reads_unpackQuestions hm.questions hlaid.questions) <|
    .bind (reads_unpackRRs hm.answers hlaid.answers ha) <|
    .bind (reads_unpackRRs hm.authorities hlaid.authorities hn) <|
    .bind hadditionals (reads_pure _)⟩

/-- **Message round trip.** A packed message is read back if no name stands behind more pointers than the bound. -/
theorem Message.unpackWith_pack (hm : m.Normal) (h : m.pack = .ok buf) (hhops : ∀ hop ∈ m.hops, hop ≤ maxHops) :
    unpackWith maxHops buf = .ok m.sent := by
  obtain ⟨hlaid, hunpack⟩ := @Message.unpackWith_of_pack maxHops _ _ h
  obtain ⟨off', hreads⟩ := hlaid.reads_unpackSections hm hhops
  rw [hunpack, hreads]

theorem Record.LaidOut.mono {r : Record} (h : Record.LaidOut msg off r hops off') (hbuf : msg <+: buf) :
    Record.LaidOut buf off r hops off' := by
  obtain ⟨⟨rdlen, mid, front, back, hhops, hhead, hbody, hend⟩, httl, hle⟩ := h
  exact ⟨⟨rdlen, mid, front, back, hhops, hhead.mono hbuf, hbody.mono hbuf, hend⟩, httl,
    hle.trans hbuf.length_le⟩

def Message.LaidOut.extend (hlaid : m.LaidOut msg) (hedns : m.edns = none) (hbuf : msg <+: buf) :
    m.LaidOut buf :=
  { hlaid with
    header := hlaid.header.mono hbuf
    questions := hlaid.questions.imp fun _ _ _ _ hq => hq.mono hbuf
    answers := hlaid.answers.imp fun _ _ _ _ hr => hr.mono hbuf
    authorities := hlaid.authorities.imp fun _ _ _ _ hr => hr.mono hbuf
    additionals := hlaid.additionals.imp fun _ _ _ _ hr => hr.mono hbuf
    edns := fun _ he => absurd (hedns.symm.trans he) nofun
    optAt_le := hlaid.optAt_le.trans hbuf.length_le }

theorem Message.unpackWith_pack_append (hm : m.Normal) (hedns : m.edns = none) (h : m.pack = .ok msg)
    (hbuf : msg <+: buf) (hhops : ∀ hop ∈ m.hops, hop ≤ maxHops) : unpackWith maxHops buf = .ok m.sent := by
  obtain ⟨hq, ha, hn, -, hmax, ⟨hlaid⟩⟩ := Message.pack_ok h
  obtain ⟨off', hreads⟩ := (hlaid.extend hedns hbuf).reads_unpackSections hm hhops
  rw [(hlaid.extend hedns hbuf).unpackWith_eq hq ha hn (hlaid.arcount_le hmax), hreads]

theorem Message.unpackWith_pack_error (hm : m.Normal) (h : m.pack = .ok buf)
    (hhops : ∃ hop ∈ m.hops, ¬hop ≤ maxHops) : ∃ e, unpackWith maxHops buf = .error e := by
  obtain ⟨hlaid, hunpack⟩ := @Message.unpackWith_of_pack maxHops _ _ h
  have hfails : (unpackSections m.id m.flags m.questions.length m.answers.length m.authorities.length
      m.arcount).Fails maxHops ⟨buf, hlaid.questionsAt⟩ := by
    refine Reads.bind_fails (reads_unpackQuestions hm.questions hlaid.questions) ?_
    by_cases ha : ∀ hop ∈ hlaid.answerHops, hop ≤ maxHops
    · refine Reads.bind_fails (reads_unpackRRs hm.answers hlaid.answers ha) ?_
      by_cases hn : ∀ hop ∈ hlaid.authorityHops, hop ≤ maxHops
      · refine Reads.bind_fails (reads_unpackRRs hm.authorities hlaid.authorities hn)
          (Fails.bind (fails_unpackAdditionals hm hlaid ?_))
        obtain ⟨hop, hmem, hgt⟩ := hhops
        rw [hlaid.hops, mem_append, mem_append] at hmem
        exact ⟨hop, hmem.resolve_left fun hmem => hgt (hmem.elim (ha hop) (hn hop)), hgt⟩
      · simp only [not_forall] at hn
        obtain ⟨hop, hmem, hgt⟩ := hn
        exact Fails.bind (fails_unpackRRs hm.authorities hlaid.authorities ⟨hop, hmem, hgt⟩)
    · simp only [not_forall] at ha
      obtain ⟨hop, hmem, hgt⟩ := ha
      exact Fails.bind (fails_unpackRRs hm.answers hlaid.answers ⟨hop, hmem, hgt⟩)
  obtain ⟨e, c', he⟩ := hfails
  exact ⟨e, by rw [hunpack, he]⟩

end Unpack

/-! ### What is read -/

section Decoded

variable {maxHops n : Nat} {c : Unpacker} {m : Message} {buf : Bytes}

theorem ensures_iterate_collect {α ε : Type} {p : Nat → Parser Nat ε α} {good : α → Prop}
    (hp : ∀ i c, (p i).Ensures maxHops c fun x _ => good x) (i : Nat) :
    (iterate (fun i => collect (p i)) n i []).Ensures maxHops c fun out _ => ∀ x ∈ out, good x := by
  refine ensures_iterate (fun out => ∀ x ∈ out, good x) (by simp) fun i out c hout => ?_
  refine .bind ((hp i c).mono fun x _ hx => .pure ?_)
  exact forall_mem_append.mpr ⟨hout, forall_mem_singleton.mpr hx⟩

theorem ensures_unpackRecord_type {nm : Name} {t : UInt16} {c' c'' : Unpacker}
    (hname : name maxHops c = (.ok nm, c')) (ht : uint16 maxHops c' = (.ok t, c'')) :
    unpackRecord.Ensures maxHops c fun r _ => r.type = t := by
  refine .bind fun nm' d hnm => ?_
  cases hname.symm.trans hnm
  refine .bind fun t' d' ht' => ?_
  obtain ⟨hok, -⟩ := Prod.mk.inj (ht.symm.trans ht')
  cases hok
  exact .bind <| ensures_uint16 fun _ => .bind <| ensures_uint32 fun _ =>
    .bind <| ensures_uint16 fun _ => .bind <|
    RData.ensures_unpack.mono fun _ _ hrd => .pure hrd.1

/-- The invariant of the loop over the additional section. -/
def NormalAdditionals (s : List Record × Option EDNS) : Prop :=
  (∀ r ∈ s.1, (r.Normal ∧ r.sent = r) ∧ r.type ≠ optTypeWire) ∧ ∀ e, s.2 = some e → e.Normal

theorem ensures_unpackAdditional (i : Nat) {s : List Record × Option EDNS} (hs : NormalAdditionals s) :
    (unpackAdditional i s).Ensures maxHops c fun s' _ => NormalAdditionals s' := by
  refine .bind <| .offset <| .bind <| ensures_mapError.mpr ?_
  have hpeek : name.Ensures maxHops c fun nm c' => name maxHops c = (.ok nm, c') ∧ c'.msg = c.msg :=
    Ensures.and (fun _ _ h => h) (ensures_name fun _ _ _ => rfl)
  refine hpeek.mono fun nm c' ⟨hname, hmsg⟩ => .bind <| ensures_mapError.mpr ?_
  have htype : uint16.Ensures maxHops c' fun t c'' => uint16 maxHops c' = (.ok t, c'') ∧ c''.msg = c'.msg :=
    Ensures.and (fun _ _ h => h) (ensures_uint16 fun _ => rfl)
  refine htype.mono fun t c'' ⟨ht, hmsg'⟩ => .bind <| .setOffset ?_
  rw [hmsg', hmsg]
  split
  · exact .bind <| .failIf fun _ => .bind <| ensures_mapError.mpr <|
      ensures_unpackOPT.mono fun e _ he => .pure ⟨hs.1, fun e' he' => Option.some.inj he' ▸ he⟩
  · rename_i hnot
    refine .bind <| ensures_mapError.mpr <|
      (ensures_unpackRecord.and (ensures_unpackRecord_type hname ht)).mono fun r _ hr => .pure ?_
    refine ⟨?_, hs.2⟩
    exact forall_mem_append.mpr ⟨hs.1, forall_mem_singleton.mpr ⟨hr.1, hr.2 ▸ hnot⟩⟩

theorem ensures_unpackQuestions : (unpackQuestions n).Ensures maxHops c fun qs _ =>
    ∀ q ∈ qs, q.name.isValid ∧ q.rawName.length > 0 ∧ q.Spelled :=
  ensures_iterate_collect (fun _ _ => ensures_mapError.mpr ensures_unpackQuestion) 0

theorem ensures_unpackRRs {section_ : MessageSection} : (unpackRRs section_ n).Ensures maxHops c fun rs _ =>
    ∀ r ∈ rs, r.Normal ∧ r.sent = r :=
  ensures_iterate_collect (fun _ _ => ensures_mapError.mpr ensures_unpackRecord) 0

theorem ensures_unpackSections {id : UInt16} {flags : Flags} {qdcount ancount nscount arcount : Nat} :
    (unpackSections id flags qdcount ancount nscount arcount).Ensures maxHops c fun m _ =>
      m.Normal ∧ m.sent = m := by
  refine .bind <| ensures_unpackQuestions.mono fun qs _ hqs => ?_
  refine .bind <| ensures_unpackRRs.mono fun ans _ hans => ?_
  refine .bind <| ensures_unpackRRs.mono fun auth _ hauth => ?_
  have hempty : NormalAdditionals ([], none) := ⟨by simp, by simp⟩
  refine .bind <| (ensures_iterate NormalAdditionals hempty fun i _ _ hs =>
    ensures_unpackAdditional i hs).mono fun s _ hs => .pure ⟨?_, ?_⟩
  · exact {
      questions := fun q hq => ⟨(hqs q hq).1, fun _ => (hqs q hq).2.2⟩
      answers := fun r hr => (hans r hr).1
      authorities := fun r hr => (hauth r hr).1
      additionals := fun r hr => ⟨(hs.1 r hr).1.1, (hs.1 r hr).2⟩
      edns := hs.2 }
  · have hq : ∀ q ∈ qs, q.sent = q := fun q hq => by rw [Question.sent, if_pos (hqs q hq).2.1]
    simp only [Message.sent, map_eq_self hq, map_eq_self fun r hr => (hans r hr).2,
      map_eq_self fun r hr => (hauth r hr).2, map_eq_self fun r hr => (hs.1 r hr).1.2]

theorem ensures_unpackMessage : unpackMessage.Ensures maxHops c fun m _ => m.Normal ∧ m.sent = m := by
  have hheader : ∀ {f : UInt16 → MessageDecoder Message} {post : Message → Unpacker → Prop} {c : Unpacker},
      (∀ v c', (f v).Ensures maxHops c' post) →
        ((mapError (itemError .header (-1)) uint16) >>= f).Ensures maxHops c post := fun h =>
    .bind <| ensures_mapError.mpr <| ensures_uint16 fun v => h v _
  apply hheader; intro id c
  apply hheader; intro flags c
  apply hheader; intro qdcount c
  apply hheader; intro ancount c
  apply hheader; intro nscount c
  apply hheader; intro arcount c
  exact ensures_unpackSections

theorem Message.normal_of_unpack (h : unpackWith maxHops buf = .ok m) : m.Normal ∧ m.sent = m := by
  rw [unpackWith] at h
  split at h
  · cases h
  · exact ensures_unpackMessage m (unpackMessage maxHops ⟨buf, 0⟩).2 (Prod.ext h rfl)

/-! ### A chain of pointers

The question is packed as it came, so its name is not entered in the compression table. Each name of
the answers below adds one label in front of the name before it, so `Pack` writes it as that label
and a pointer to the name before, which itself ends in a pointer. -/

def chainWire (n : Nat) : Bytes :=
  (List.range n).reverse.flatMap (fun i => [1, UInt8.ofNat (0x61 + i)]) ++ [0]

theorem wellFormed_chainWire : ∀ n : Fin 35, WellFormed (chainWire n) := by decide +kernel

/-- A name of `n` one-byte labels. -/
def chainName (n : Nat) : Name :=
  if h : n < 35 then ⟨chainWire n, .inr (wellFormed_chainWire ⟨n, h⟩)⟩ else .zero

/-- Two records whose names share a suffix. -/
def pairMessage : Message :=
  ⟨0, 0, [⟨chainName 1, 2, 1, chainWire 1⟩],
    [⟨chainName 1, 1, 0, .ns (chainName 2)⟩, ⟨chainName 2, 1, 0, .ns (chainName 3)⟩], [], [], none⟩

def pairWireMessage : Bytes :=
  [0, 0, 0, 0, 0, 1, 0, 2, 0, 0, 0, 0, 1, 0x61, 0, 0, 2, 0, 1, 0xc0, 12, 0, 2, 0, 1, 0, 0, 0, 0, 0, 4, 1, 0x62, 0xc0,
    12, 0xc0, 31, 0, 2, 0, 1, 0, 0, 0, 0, 0, 4, 1, 0x63, 0xc0, 31]

/-- What `Pack` writes: the first owner in full, then pointers to the answers. -/
def pairRepacked : Bytes :=
  [0, 0, 0, 0, 0, 1, 0, 2, 0, 0, 0, 0, 1, 0x61, 0, 0, 2, 0, 1, 1, 0x61, 0, 0, 2, 0, 1, 0, 0, 0, 0, 0, 4, 1, 0x62,
    0xc0, 19, 0xc0, 32, 0, 2, 0, 1, 0, 0, 0, 0, 0, 4, 1, 0x63, 0xc0, 32]

/-- Packing what was unpacked and unpacking it gives the same message exactly if no compressed name stands behind more
than `maxPtrHops` pointers. -/
theorem Message.unpack_pack_of_unpack {buf' : Bytes} (h : unpack buf = .ok m) (hpack : m.pack = .ok buf') :
    unpack buf' = .ok m ↔ ∀ hop ∈ m.hops, hop ≤ maxPtrHops := by
  obtain ⟨hnormal, hsent⟩ := Message.normal_of_unpack h
  constructor
  · intro hok
    by_contra hhops
    simp only [not_forall] at hhops
    obtain ⟨hop, hmem, hgt⟩ := hhops
    obtain ⟨e, he⟩ := Message.unpackWith_pack_error hnormal hpack ⟨hop, hmem, hgt⟩
    exact absurd (he.symm.trans hok) nofun
  · intro hhops
    rw [unpack, Message.unpackWith_pack hnormal hpack hhops, hsent]

end Decoded

/-- Two answers whose names are chained: the owner of the second follows two pointers. -/
theorem Message.unpack_pack_of_unpack_pair : Message.unpack pairWireMessage = .ok pairMessage ∧
    pairMessage.hops = [0, 1, 2, 2] ∧ Message.unpack pairRepacked = .ok pairMessage := by
  have hunpack : Message.unpack pairWireMessage = .ok pairMessage := by decide +kernel
  have hpack : pairMessage.pack = .ok pairRepacked := by decide +kernel
  have hhops : pairMessage.hops = [0, 1, 2, 2] := by decide +kernel
  exact ⟨hunpack, hhops, (Message.unpack_pack_of_unpack hunpack hpack).mpr (hhops ▸ by decide)⟩

/-- A pointer to the last `n` labels of a question name of 34 labels. -/
def toChain (n : Nat) : Bytes := [0xc0, UInt8.ofNat (80 - 2 * n)]

def chainWireMessage : Bytes :=
  [0, 0, 0, 0, 0, 1, 0, 17, 0, 0, 0, 0] ++ chainWire 34 ++ [0, 1, 0, 1] ++
    (List.range 17).flatMap fun i =>
      toChain (2 * i + 1) ++ [0, 2, 0, 1, 0, 0, 0, 0, 0, 2] ++ toChain (2 * i + 2)

/-- Seventeen records that each make the chain of pointers longer. -/
def chainMessage : Message :=
  ⟨0, 0, [⟨chainName 34, 1, 1, chainWire 34⟩],
    (List.range 17).map fun i => ⟨chainName (2 * i + 1), 1, 0, .ns (chainName (2 * i + 2))⟩, [], [], none⟩

theorem unpack_chainWireMessage : Message.unpack chainWireMessage = .ok chainMessage := by decide +kernel

theorem isOk_pack_chainMessage : chainMessage.pack.isOk = true := by decide +kernel

theorem hops_chainMessage : 33 ∈ chainMessage.hops := by decide +kernel

/-- `Unpack` follows 32 pointers, so it refuses what `Pack` wrote for the last of 34 chained names. -/
theorem Message.unpack_pack_chainMessage : Message.unpack chainWireMessage = .ok chainMessage ∧
    ∃ buf, chainMessage.pack = .ok buf ∧ ∃ e, Message.unpack buf = .error e := by
  refine ⟨unpack_chainWireMessage, ?_⟩
  have hnormal := (Message.normal_of_unpack unpack_chainWireMessage).1
  have hok := isOk_pack_chainMessage
  cases hpack : chainMessage.pack with
  | error e => rw [hpack] at hok; cases hok
  | ok buf => exact ⟨buf, rfl, Message.unpackWith_pack_error hnormal hpack ⟨33, hops_chainMessage, by decide⟩⟩

end Acidns
