import Acidns.Tsig.Basic

/-!
# Reading the records of a zone transfer

The record readers of `axfr/axfr.go` and `ixfr/ixfr.go` with their TSIG verifiers, `axfr/tsig.go` and
`ixfr/tsig.go`. A reader pulls messages off a stream, checks that each belongs to the request, and
hands out the records of their answer sections one by one; records can be pushed back. The two
packages differ only in how they recognise the end of the stream.

What a reader still has to give is a list of records and the error behind them (`outcome`); the
clients of the reader are verified against that.
-/

namespace Acidns.Transfer

open List

variable {m : Message} {protocol : Protocol} {wantQ : Question} {wantID : UInt16}

open Tsig (Key Algorithm)

/-- Why a transfer stops. -/
inductive TransferError where
  /-- `io.EOF` itself. -/
  | eof
  | stream (text : String)
  | setup (text : String)
  | envelopeMismatch (text : String)
  | rcode (code : RCODE)
  | tsigVerify (text : String)
  | emptyResponse
  | missingLeadingSOA
  | invalidSOAPair
  | unexpectedRecord
  | missingClosingSOA
  | missingSubDiffSOA (text : String)
  /-- An error that wraps another with `%w`. -/
  | wrap (context : String) (cause : TransferError)
  deriving DecidableEq

def TransferError.isEOF : TransferError → Bool
  | .eof => true
  | .wrap _ cause => cause.isEOF
  | _ => false

inductive Protocol where
  | axfr
  | ixfr
  deriving DecidableEq

def Protocol.isEnd : Protocol → TransferError → Bool
  | .axfr, e => e.isEOF
  | .ixfr, e => e = .eof

/-- A `MessageStream`: the messages it still delivers and the error with which it fails then. -/
structure MessageStream where
  messages : List Message
  closed : TransferError

/-! ### The stream of a connection -/

/-- How the bytes of a connection end behind the last complete frame. -/
inductive ConnEnd where
  | clean
  | broken (text : String)

def connStream (expect : UInt16) (frames : List Bytes) (atEnd : ConnEnd) : MessageStream :=
  match frames with
  | [] => ⟨[], match atEnd with | .clean => .eof | .broken text => .stream text⟩
  | frame :: frames =>
    match Message.unpack frame with
    | .error e => ⟨[], .stream ("streamframe: unmarshal: " ++ e.message)⟩
    | .ok m =>
      if m.id ≠ expect then ⟨[], .stream s!"streamframe: id mismatch: got {m.id}, want {expect}"⟩
      else { connStream expect frames atEnd with messages := m :: (connStream expect frames atEnd).messages }

theorem unpack_of_mem_connStream {expect : UInt16} {frames : List Bytes} {atEnd : ConnEnd}
    (h : m ∈ (connStream expect frames atEnd).messages) : ∃ frame ∈ frames, Message.unpack frame = .ok m := by
  induction frames with
  | nil => cases h
  | cons frame frames ih => grind [connStream]

/-! ### Signed envelopes -/

def messageHasTSIG (m : Message) : Bool := m.additionals.any fun r => r.type = Tsig.tsigType

/-- `tsigVerifier`. The clock is read once for each signed envelope. -/
structure Verifier where
  /-- `crypto/hmac`. -/
  hmac : Algorithm → Bytes → Bytes → Bytes
  key : Key
  priorMAC : Bytes
  now : Nat → Int
  readings : Nat
  fudge : Int
  first : Bool
  unsignedRun : Nat

/-- `maxUnsignedAXFREnvelopes` and `maxUnsignedIXFREnvelopes`. -/
def maxUnsignedEnvelopes : Nat := 99

def newTSIGVerifier (hmac : Algorithm → Bytes → Bytes → Bytes) (key : Key) (requestMAC : Bytes) (now : Nat → Int)
    (fudge : Int) : Verifier :=
  ⟨hmac, key, requestMAC, now, 0, fudge, true, 0⟩

namespace Verifier

/-- Verify a signed envelope with `check` and go on from its MAC; no unsigned one stands before the first. -/
def verifySigned (v : Verifier) (m : Message)
    (check : Bytes → Int → Except Tsig.TsigError (Bytes × Bytes × Int)) : Except TransferError Unit × Verifier :=
  match m.pack with
  | .error e => (.error (.tsigVerify ("re-marshal: " ++ e.message)), v)
  | .ok raw =>
    let v' := { v with readings := v.readings + 1 }
    match check raw (v.now v.readings) with
    | .error e => (.error (.tsigVerify e.text), v')
    | .ok (_, mac, _) => (.ok (), { v' with priorMAC := mac, first := false, unsignedRun := 0 })

/-- Each envelope is checked against the MAC before it. -/
def verify (v : Verifier) (m : Message) : Except TransferError Unit × Verifier :=
  if v.first then
    if messageHasTSIG m then
      v.verifySigned m fun raw now => Tsig.verifyResponse v.hmac raw v.key v.priorMAC now v.fudge
    else (.error (.tsigVerify "first envelope unsigned"), v)
  else if messageHasTSIG m then
    v.verifySigned m fun raw now => Tsig.verifyAXFRChunk v.hmac raw v.key v.priorMAC now v.fudge
  else
    let v := { v with unsignedRun := v.unsignedRun + 1 }
    if v.unsignedRun > maxUnsignedEnvelopes then
      (.error (.tsigVerify
        s!"{v.unsignedRun} consecutive unsigned envelopes (RFC 8945 §5.3.2 cap is 99)"), v)
    else (.ok (), v)

end Verifier

/-! ### The record reader -/

/-- Records one by one from a stream of messages. -/
structure RecReader where
  protocol : Protocol
  stream : MessageStream
  /-- The answers of the current message that have not been handed out. -/
  cur : List Record
  pushback : List Record
  msgEOF : Bool
  verifier : Option Verifier
  wantID : UInt16
  wantQ : Question

def questionMismatch (wantQ : Question) : List Question → Bool
  | [] => false
  | q :: _ => q.typ ≠ wantQ.typ || q.class_ ≠ wantQ.class_ || !q.name.equal wantQ.name

/-- Id, question and response code of an envelope. -/
def checkEnvelope (wantID : UInt16) (wantQ : Question) (m : Message) : Except TransferError Unit := do
  refuseIf (m.id ≠ wantID) (.envelopeMismatch s!"id {m.id} != {wantID}")
  refuseIf (questionMismatch wantQ m.questions = true) (.envelopeMismatch "question mismatch")
  refuseIf (m.flags.rcode ≠ RCODE.noError) (.rcode m.flags.rcode)

def examine (wantID : UInt16) (wantQ : Question) (v : Option Verifier) (m : Message) :
    Except TransferError Unit × Option Verifier :=
  match checkEnvelope wantID wantQ m, v with
  | .error e, v => (.error e, v)
  | .ok (), none => (.ok (), none)
  | .ok (), some v => ((v.verify m).1, some (v.verify m).2)

namespace RecReader

def fetch : (messages : List Message) → RecReader → Except TransferError Record × RecReader
  | [], rr =>
    if rr.protocol.isEnd rr.stream.closed then (.error .eof, { rr with msgEOF := true })
    else (.error rr.stream.closed, rr)
  | m :: ms, rr =>
    let rr := { rr with stream.messages := ms }
    match examine rr.wantID rr.wantQ rr.verifier m with
    | (.error e, v) => (.error e, { rr with verifier := v })
    | (.ok (), v) =>
      match m.answers with
      | rec :: cur => (.ok rec, { rr with verifier := v, cur })
      | [] => fetch ms { rr with verifier := v, cur := [] }

/-- A pushed-back record first, then the envelope at hand, then the stream. -/
def read : Program RecReader TransferError Record := fun rr =>
  match rr.pushback, rr.cur with
  | rec :: pushback, _ => (.ok rec, { rr with pushback })
  | [], rec :: cur => (.ok rec, { rr with cur })
  | [], [] => if rr.msgEOF then (.error .eof, rr) else fetch rr.stream.messages rr

def push (rec : Record) (rr : RecReader) : RecReader := { rr with pushback := rr.pushback ++ [rec] }

end RecReader

/-! ### What a reader has to give -/

theorem isEOF_checkEnvelope {e : TransferError}
    (h : checkEnvelope wantID wantQ m = .error e) : e.isEOF = false := by
  simp only [checkEnvelope, refuseIf, bind, Except.bind] at h
  split_ifs at h <;> · cases h; rfl

theorem Verifier.isEOF_verify {v : Verifier} {e : TransferError} (h : (v.verify m).1 = .error e) :
    e.isEOF = false := by
  grind [verify, verifySigned, TransferError.isEOF]

theorem isEOF_examine {v : Option Verifier} {e : TransferError}
    (h : (examine wantID wantQ v m).1 = .error e) : e.isEOF = false := by
  rw [examine.eq_def] at h
  split at h
  · rename_i hcheck
    exact isEOF_checkEnvelope (hcheck.trans h)
  · cases h
  · exact Verifier.isEOF_verify h

def accepted (protocol : Protocol) (closed : TransferError) (wantID : UInt16) (wantQ : Question) :
    (messages : List Message) → Option Verifier → List Record × TransferError
  | [], _ => ([], if protocol.isEnd closed then .eof else closed)
  | m :: ms, v =>
    match examine wantID wantQ v m with
    | (.error e, _) => ([], e)
    | (.ok (), v') =>
      (m.answers ++ (accepted protocol closed wantID wantQ ms v').1, (accepted protocol closed wantID wantQ ms v').2)

namespace RecReader

def upstream (rr : RecReader) : List Record × TransferError :=
  if rr.msgEOF then ([], .eof)
  else accepted rr.protocol rr.stream.closed rr.wantID rr.wantQ rr.stream.messages rr.verifier

def outcome (rr : RecReader) : List Record × TransferError :=
  (rr.pushback ++ rr.cur ++ rr.upstream.1, rr.upstream.2)

variable {rr : RecReader} {rec : Record} {recs : List Record} {e : TransferError}

theorem upstream_of_live (h : rr.msgEOF = false) : rr.upstream =
    accepted rr.protocol rr.stream.closed rr.wantID rr.wantQ rr.stream.messages rr.verifier :=
  if_neg (by simp [h])

theorem fetch_spec (ms : List Message) (rr : RecReader) (hpush : rr.pushback = []) (hcur : rr.cur = [])
    (heof : rr.msgEOF = false) :
    match accepted rr.protocol rr.stream.closed rr.wantID rr.wantQ ms rr.verifier with
    | ([], e) => ∃ rr', fetch ms rr = (.error e, rr') ∧ (e = .eof → rr'.outcome = ([], .eof))
    | (rec :: recs, e) => ∃ rr', fetch ms rr = (.ok rec, rr') ∧ rr'.outcome = (recs, e) ∧ rr'.pushback = [] := by
  induction ms generalizing rr with
  | nil =>
    simp only [accepted, fetch]
    by_cases hend : rr.protocol.isEnd rr.stream.closed = true
    · simp only [hend, if_true]
      exact ⟨_, rfl, fun _ => by simp [outcome, upstream, hpush, hcur]⟩
    · simp only [hend]
      refine ⟨_, rfl, fun hclosed => absurd ?_ hend⟩
      rw [show rr.stream.closed = .eof by simpa using hclosed]
      cases rr.protocol <;> rfl
  | cons m ms ih =>
    rcases hexamine : examine rr.wantID rr.wantQ rr.verifier m with ⟨e | u, v⟩
    · simp only [accepted, fetch, hexamine]
      refine ⟨_, rfl, fun he => ?_⟩
      subst he
      exact absurd (isEOF_examine (congrArg Prod.fst hexamine)) nofun
    · cases hanswers : m.answers with
      | nil =>
        have hrest := ih { rr with stream.messages := ms, verifier := v, cur := [] } hpush rfl heof
        simpa only [accepted, fetch, hexamine, hanswers, nil_append] using hrest
      | cons rec cur => simp [accepted, fetch, outcome, upstream_of_live, *]

theorem read_cons (h : rr.outcome = (rec :: recs, e)) :
    ∃ rr', read rr = (.ok rec, rr') ∧ rr'.outcome = (recs, e) ∧ rr'.pushback = rr.pushback.tail := by
  obtain ⟨hrecs, he⟩ := Prod.mk.inj h
  cases hpush : rr.pushback with
  | cons rec' pushback =>
    rw [hpush, append_assoc, cons_append] at hrecs
    obtain ⟨rfl, htail⟩ := List.cons.inj hrecs
    refine ⟨{ rr with pushback }, by rw [read, hpush], Prod.ext ?_ he, rfl⟩
    rw [← htail, ← append_assoc]
    rfl
  | nil =>
    rw [hpush, nil_append] at hrecs
    cases hcur : rr.cur with
    | cons rec' cur =>
      rw [hcur, cons_append] at hrecs
      obtain ⟨rfl, htail⟩ := List.cons.inj hrecs
      refine ⟨{ rr with cur }, by rw [read, hpush, hcur], Prod.ext ?_ he, hpush⟩
      change rr.pushback ++ cur ++ rr.upstream.1 = recs
      rw [hpush, ← htail, nil_append]
    | nil => grind [upstream, fetch_spec, read]

theorem read_nil (h : rr.outcome = ([], e)) :
    ∃ rr', read rr = (.error e, rr') ∧ (e = .eof → rr'.outcome = ([], .eof)) := by
  grind [upstream, read, fetch_spec, outcome]

theorem outcome_push (hpush : rr.pushback = []) (hout : rr.outcome = (recs, e)) :
    (rr.push rec).outcome = (rec :: recs, e) := by
  grind [upstream, outcome, push]

theorem outcome_push_push {rec' : Record} (hpush : rr.pushback = []) (hout : rr.outcome = (recs, e)) :
    ((rr.push rec).push rec').outcome = (rec :: rec' :: recs, e) := by
  grind [upstream, outcome, push]

def remaining (rr : RecReader) : Nat :=
  rr.pushback.length + rr.cur.length + (rr.stream.messages.map fun m => m.answers.length).sum

theorem length_accepted_le {closed : TransferError} (ms : List Message) (v : Option Verifier) :
    (accepted protocol closed wantID wantQ ms v).1.length ≤ (ms.map fun m => m.answers.length).sum := by
  induction ms generalizing v with
  | nil => simp [accepted]
  | cons m ms ih => grind [accepted]

theorem length_outcome_le (rr : RecReader) : rr.outcome.1.length ≤ rr.remaining := by
  grind [upstream, length_accepted_le, outcome, remaining]

end RecReader

def newReader (protocol : Protocol) (stream : MessageStream) (verifier : Option Verifier) (wantID : UInt16)
    (wantQ : Question) : RecReader :=
  ⟨protocol, stream, [], [], false, verifier, wantID, wantQ⟩

theorem outcome_newReader {stream : MessageStream} {verifier : Option Verifier}
    : (newReader protocol stream verifier wantID wantQ).outcome =
      accepted protocol stream.closed wantID wantQ stream.messages verifier := by
  simp [newReader, RecReader.outcome, RecReader.upstream]

theorem accepted_of_check {messages : List Message}
    (h : ∀ m ∈ messages, checkEnvelope wantID wantQ m = .ok ()) :
    accepted protocol .eof wantID wantQ messages none = (messages.flatMap fun m => m.answers, .eof) := by
  induction messages with
  | nil =>
    cases protocol <;> rfl
  | cons m ms ih => grind [examine.eq_def, accepted]

end Acidns.Transfer
