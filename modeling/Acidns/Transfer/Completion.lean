import Acidns.Transfer.History

/-!
# When a transfer stops reading

A server may keep the connection open behind a complete response, so a client should recognise the end of the
response by its records and not ask the stream for more. The stream here is the response with anything
behind it, and what counts is how much of it is left: each message that is gone was one call of the stream's
`Next`.

A transfer of a whole zone leaves alone what stands behind the response. An incremental transfer has read the
whole response once its last difference is reported; then it looks whether anything follows the closing SOA.
-/

namespace Acidns.Transfer

open List

open Program (Drains Yields)

/-- Every message passes the envelope checks. -/
def Passes (wantID : UInt16) (wantQ : Question) : List Message → Option Verifier → Prop
  | [], _ => True
  | m :: ms, v => (examine wantID wantQ v m).1 = .ok () ∧ Passes wantID wantQ ms (examine wantID wantQ v m).2

/-- The messages carry the records, whichever way they are cut. -/
structure Splits (wantID : UInt16) (wantQ : Question) (v : Option Verifier) (messages : List Message)
    (recs : List Record) : Prop where
  records : messages.flatMap (fun m => m.answers) = recs
  passes : Passes wantID wantQ messages v
  last : ∀ m ∈ messages.getLast?, m.answers ≠ []

/-- These records are still to come. -/
structure RecReader.Holds (rr : RecReader) (recs : List Record) (behind : MessageStream) : Prop where
  live : rr.msgEOF = false
  unread : ∃ messages left, rr.stream = ⟨messages ++ behind.messages, behind.closed⟩ ∧
    Splits rr.wantID rr.wantQ rr.verifier messages left ∧ recs = rr.pushback ++ rr.cur ++ left

section Reader

variable {wantID : UInt16} {wantQ : Question} {v : Option Verifier} {m : Message} {messages : List Message}
  {rec : Record} {recs : List Record} {rr : RecReader} {behind : MessageStream}

theorem Splits.tail (h : Splits wantID wantQ v (m :: messages) recs) :
    examine wantID wantQ v m = (.ok (), (examine wantID wantQ v m).2) ∧
      Splits wantID wantQ (examine wantID wantQ v m).2 messages (messages.flatMap fun m => m.answers) ∧
      recs = m.answers ++ messages.flatMap fun m => m.answers := by
  refine ⟨Prod.ext h.passes.1 rfl, ⟨rfl, h.passes.2, fun m' hm' => h.last m' ?_⟩, h.records.symm⟩
  rw [Option.mem_def] at hm' ⊢
  rw [List.getLast?_cons, hm', Option.getD_some]

theorem RecReader.fetch_holds (hpush : rr.pushback = []) (hlive : rr.msgEOF = false)
    (hclosed : rr.stream.closed = behind.closed) (h : Splits rr.wantID rr.wantQ rr.verifier messages (rec :: recs)) :
    ∃ rr', fetch (messages ++ behind.messages) rr = (.ok rec, rr') ∧ rr'.Holds recs behind ∧ rr'.pushback = [] := by
  induction messages generalizing rr with
  | nil => cases h.records
  | cons m messages ih =>
    obtain ⟨hexamine, htail, hrecs⟩ := h.tail
    rw [cons_append, fetch]
    rw [hexamine]
    cases hanswers : m.answers with
    | nil =>
      rw [hanswers, nil_append] at hrecs
      rw [← hrecs] at htail
      exact @ih { rr with
        stream.messages := messages ++ behind.messages
        verifier := (examine rr.wantID rr.wantQ rr.verifier m).2
        cur := [] } hpush hlive hclosed htail
    | cons rec' cur =>
      rw [hanswers] at hrecs
      obtain ⟨rfl, hrest⟩ := List.cons.inj hrecs
      refine ⟨_, rfl, ⟨hlive, messages, _, ?_, htail, ?_⟩, hpush⟩
      · rw [← hclosed]
      · rw [hrest, hpush]
        rfl

theorem RecReader.read_holds (h : rr.Holds (rec :: recs) behind) :
    ∃ rr', read rr = (.ok rec, rr') ∧ rr'.Holds recs behind ∧ rr'.pushback = rr.pushback.tail := by
  obtain ⟨hlive, messages, left, hstream, hsplits, hrecs⟩ := h
  cases hpush : rr.pushback with
  | cons rec' pushback =>
    rw [hpush, append_assoc, cons_append] at hrecs
    obtain ⟨rfl, hrest⟩ := List.cons.inj hrecs
    refine ⟨{ rr with pushback }, by rw [read, hpush], ⟨hlive, messages, left, hstream, hsplits, ?_⟩, rfl⟩
    rw [hrest, ← append_assoc]
  | nil =>
    rw [hpush, nil_append] at hrecs
    cases hcur : rr.cur with
    | cons rec' cur =>
      rw [hcur, cons_append] at hrecs
      obtain ⟨rfl, hrest⟩ := List.cons.inj hrecs
      refine ⟨{ rr with cur }, by rw [read, hpush, hcur], ⟨hlive, messages, left, hstream, hsplits, ?_⟩, hpush⟩
      rw [hrest, hpush]
      rfl
    | nil => simp [fetch_holds, read, *]

theorem RecReader.Holds.push (h : rr.Holds recs behind) (hpush : rr.pushback = []) :
    (rr.push rec).Holds (rec :: recs) behind := by
  obtain ⟨hlive, messages, left, hstream, hsplits, rfl⟩ := h
  refine ⟨hlive, messages, left, hstream, hsplits, ?_⟩
  simp [RecReader.push, hpush]

theorem RecReader.Holds.push_push {rec' : Record} (h : rr.Holds recs behind) (hpush : rr.pushback = []) :
    ((rr.push rec).push rec').Holds (rec :: rec' :: recs) behind := by
  obtain ⟨hlive, messages, left, hstream, hsplits, rfl⟩ := h
  refine ⟨hlive, messages, left, hstream, hsplits, ?_⟩
  simp [RecReader.push, hpush]

theorem RecReader.Holds.stream_eq (h : rr.Holds recs behind) (hlength : recs.length ≤ rr.pushback.length) :
    rr.stream = behind ∧ rr.msgEOF = false ∧ rr.cur = [] := by
  obtain ⟨hlive, messages, left, hstream, hsplits, rfl⟩ := h
  obtain ⟨hcur, rfl⟩ : rr.cur = [] ∧ left = [] := by
    simp only [length_append] at hlength
    exact ⟨length_eq_zero_iff.mp (by omega), length_eq_zero_iff.mp (by omega)⟩
  have hnone : messages = [] := by
    cases hlast : messages.getLast? with
    | none => exact List.getLast?_eq_none_iff.mp hlast
    | some m =>
      have hmem : m ∈ messages := mem_of_getLast? hlast
      have hempty : m.answers = [] := flatMap_eq_nil_iff.mp hsplits.records m hmem
      exact absurd hempty (hsplits.last m hlast)
  rw [hnone] at hstream
  exact ⟨hstream, hlive, hcur⟩

theorem RecReader.Holds.pushback_of_nil (h : rr.Holds [] behind) : rr.pushback = [] := by
  obtain ⟨-, -, left, -, -, hrecs⟩ := h
  have hnil : (rr.pushback = [] ∧ rr.cur = []) ∧ left = [] := by
    simpa only [append_eq_nil_iff] using hrecs.symm
  exact hnil.1.1

theorem holds_newReader {protocol : Protocol} (h : Splits wantID wantQ v messages recs) :
    (newReader protocol ⟨messages ++ behind.messages, behind.closed⟩ v wantID wantQ).Holds recs behind :=
  ⟨rfl, messages, recs, rfl, h, rfl⟩

end Reader

/-! ### Whole zones -/

section Zone

variable {t : ZoneTransfer} {body recs : List Record} {rec opening closing : Record} {behind : MessageStream}
  {reader : RecReader} {soa : SOA}

theorem ZoneTransfer.next_of_holds (hdone : t.done = false) (h : t.reader.Holds (rec :: recs) behind) :
    ∃ reader, ZoneTransfer.next t = (.ok rec, { t.note rec with reader }) ∧ reader.Holds recs behind := by
  grind [RecReader.read_holds, next]

theorem drains_rest (hdone : t.done = false) (hseen : t.emittedFirstSOA = true)
    (hbody : ∀ rec ∈ body, isBracket t.newSOA.serial rec = false) (hclosing : isBracket t.newSOA.serial closing = true)
    (h : t.reader.Holds (body ++ [closing]) behind) :
    ∃ t', Drains ZoneTransfer.next t (body ++ [closing]) .eof t' ∧ t'.reader.Holds [] behind := by
  induction body generalizing t with
  | nil =>
    obtain ⟨reader, hnext, hholds⟩ := ZoneTransfer.next_of_holds hdone h
    have hnote : t.note closing = { t with done := true } := by simp [ZoneTransfer.note, hclosing, hseen]
    exact ⟨_, .step hnext (.stop (by simp [ZoneTransfer.next, hnote]; rfl)), hholds⟩
  | cons rec body ih =>
    obtain ⟨hrec, hbody⟩ := forall_mem_cons.mp hbody
    obtain ⟨reader, hnext, hholds⟩ := ZoneTransfer.next_of_holds hdone h
    have hnote : t.note rec = t := by simp [ZoneTransfer.note, hrec]
    rw [hnote] at hnext
    obtain ⟨t', hdrains, hholds'⟩ := @ih { t with reader } hdone hseen hbody hclosing hholds
    exact ⟨t', .step hnext hdrains, hholds'⟩

theorem drains_zone (hdone : t.done = false) (hseen : t.emittedFirstSOA = false)
    (hopening : isBracket t.newSOA.serial opening = true)
    (hbody : ∀ rec ∈ body, isBracket t.newSOA.serial rec = false) (hclosing : isBracket t.newSOA.serial closing = true)
    (h : t.reader.Holds (opening :: (body ++ [closing])) behind) :
    ∃ t', Drains ZoneTransfer.next t (opening :: (body ++ [closing])) .eof t' ∧ t'.reader.Holds [] behind := by
  obtain ⟨reader, hnext, hholds⟩ := ZoneTransfer.next_of_holds hdone h
  have hnote : t.note opening = { t with emittedFirstSOA := true } := by simp [ZoneTransfer.note, hopening, hseen]
  rw [hnote] at hnext
  obtain ⟨t', hdrains, hholds'⟩ := @drains_rest { t with emittedFirstSOA := true, reader } _ _ _ hdone rfl hbody hclosing
    hholds
  exact ⟨t', .step hnext hdrains, hholds'⟩

theorem Version.isBracket (v : Version) : isBracket v.data.serial v.soa = true := by
  simp [Transfer.isBracket, v.asSOA]

theorem zoneInit_of_holds (h : reader.Holds (rec :: recs) behind) (hpush : reader.pushback = [])
    (hsoa : rec.asSOA = some soa) :
    ∃ reader', ZoneTransfer.init reader = .ok ⟨reader', soa, false, false⟩ ∧ reader'.Holds (rec :: recs) behind := by
  obtain ⟨rr, hread, hholds, hpush'⟩ := RecReader.read_holds h
  refine ⟨rr.push rec, ?_, hholds.push (by rw [hpush', hpush]; rfl)⟩
  rw [ZoneTransfer.init, hread]
  dsimp only
  rw [hsoa]

end Zone

/-! ### Differences -/

section Incremental

variable {rr : RecReader} {front rest recs : List Record} {soa : Record} {behind : MessageStream} {t : IxfrTransfer}
  {v : Version} {step : HistoryStep} {steps : List HistoryStep}

theorem RecReader.Holds.length_le (h : rr.Holds recs behind) : recs.length ≤ rr.remaining := by
  obtain ⟨-, messages, left, hstream, hsplits, rfl⟩ := h
  rw [RecReader.remaining, hstream, ← hsplits.records]
  simp only [length_append, length_flatMap, map_append, sum_append]
  omega

theorem untilSOA_holds {fuel : Nat} (h : rr.Holds (front ++ soa :: rest) behind) (hpush : rr.pushback = [])
    (hfront : ∀ rec ∈ front, rec.type ≠ .soa) (hsoa : soa.type = .soa) (hfuel : front.length < fuel) :
    ∃ rr', IxfrTransfer.untilSOA fuel rr = (.ok (front, soa), rr') ∧ rr'.Holds rest behind ∧ rr'.pushback = [] := by
  induction front generalizing rr fuel with
  | nil =>
    obtain ⟨fuel, rfl⟩ := Nat.exists_eq_succ_of_ne_zero (Nat.ne_zero_of_lt hfuel)
    obtain ⟨rr', hread, hholds, hpush'⟩ := RecReader.read_holds h
    rw [IxfrTransfer.untilSOA, Program.bind_of_ok hread, if_pos hsoa]
    exact ⟨rr', rfl, hholds, by rw [hpush', hpush]; rfl⟩
  | cons rec front ih =>
    obtain ⟨fuel, rfl⟩ := Nat.exists_eq_succ_of_ne_zero (Nat.ne_zero_of_lt hfuel)
    obtain ⟨hrec, hfront⟩ := forall_mem_cons.mp hfront
    obtain ⟨rr', hread, hholds, hpush'⟩ := RecReader.read_holds h
    obtain ⟨rr'', huntil, hholds', hpush''⟩ := @ih rr' fuel hholds (by rw [hpush', hpush]; rfl) hfront
      (by simpa using hfuel)
    rw [IxfrTransfer.untilSOA, Program.bind_of_ok hread, if_neg hrec, Program.bind_of_ok huntil]
    exact ⟨rr'', rfl, hholds', hpush''⟩

structure IxfrTransfer.Waits (t : IxfrTransfer) (recs : List Record) (behind : MessageStream) : Prop where
  kind : t.kind = .incremental
  incDone : t.incDone = false
  holds : t.reader.Holds recs behind
  pushback : t.reader.pushback.length = 1

theorem IxfrTransfer.Waits.first (h : t.Waits (v.soa :: recs) behind) :
    ∃ reader, reader.Holds recs behind ∧ reader.pushback = [] ∧
      IxfrTransfer.next t =
        (if v.data.serial = t.newSOA.serial then IxfrTransfer.close
        else IxfrTransfer.subDiff (t.reader.remaining + 1) v.data.serial) { t with reader } := by
  obtain ⟨reader, hread, hholds, hpush⟩ := RecReader.read_holds h.holds
  have hempty : reader.pushback = [] := by
    rw [hpush]
    exact length_eq_zero_iff.mp (by have hle := h.pushback; rw [length_tail]; omega)
  refine ⟨reader, hholds, hempty, ?_⟩
  have hnext : IxfrTransfer.next t = IxfrTransfer.nextIncremental t := by rw [IxfrTransfer.next, h.kind]
  rw [IxfrTransfer.nextIncremental, if_neg (by simp [h.incDone]),
    Program.bind_of_ok (onReader_of_eq (Program.mapError_of_ok hread)), v.asSOA] at hnext
  exact hnext

theorem IxfrTransfer.Waits.next (h : t.Waits (differences v (step :: steps) ++ [(newest v (step :: steps)).soa]) behind)
    (hserial : v.serial ≠ t.newSOA.serial) :
    ∃ reader, IxfrTransfer.next t = (.ok (.diff v.serial step.version.serial step.removed step.added), { t with reader }) ∧
      IxfrTransfer.Waits { t with reader } (differences step.version steps ++ [(newest step.version steps).soa]) behind := by
  obtain ⟨rest, hrest⟩ := differences_eq_cons step.version steps
  have hrecs : differences v (step :: steps) ++ [(newest v (step :: steps)).soa] =
      v.soa :: (step.removed ++ step.version.soa :: (step.added ++ step.version.soa :: rest)) := by
    simp only [differences, newest, cons_append, append_assoc, hrest]
  rw [hrecs] at h
  have hlength := h.holds.length_le
  simp only [length_cons, length_append] at hlength
  obtain ⟨reader, hholds, hpush, hnext⟩ := h.first
  have hne : ¬v.data.serial = t.newSOA.serial := hserial
  rw [if_neg hne] at hnext
  have hfuel : step.removed.length < t.reader.remaining + 1 ∧ step.added.length < t.reader.remaining + 1 := by omega
  -- the records removed, and those added up to the next SOA
  obtain ⟨rr, hremoved, hholds, hpush⟩ := untilSOA_holds hholds hpush step.removed_ne step.version.type_soa hfuel.1
  obtain ⟨rr', hadded, hholds, hpush⟩ := untilSOA_holds hholds hpush step.added_ne step.version.type_soa hfuel.2
  refine ⟨rr'.push step.version.soa, hnext.trans ?_, ⟨h.kind, h.incDone, ?_, by simp [RecReader.push, hpush]⟩⟩
  · rw [IxfrTransfer.subDiff, Program.bind_of_ok (onReader_of_eq (Program.mapError_of_ok hremoved))]
    dsimp only
    rw [step.version.asSOA]
    dsimp only
    rw [Program.bind_of_ok (onReader_of_eq (Program.mapError_of_ok hadded))]
    rfl
  · rw [hrest]
    exact hholds.push hpush

theorem isEOF_of_isEnd {protocol : Protocol} {e : TransferError} (h : protocol.isEnd e = true) : e.isEOF = true := by
  cases protocol with
  | axfr => exact h
  | ixfr =>
    obtain rfl : e = .eof := of_decide_eq_true h
    rfl

def OnlyLast (serial : UInt32) : Version → List HistoryStep → Prop
  | _, [] => True
  | v, step :: steps => v.serial ≠ serial ∧ OnlyLast serial step.version steps

theorem yields_differences (h : t.Waits (differences v steps ++ [(newest v steps).soa]) behind)
    (honly : OnlyLast t.newSOA.serial v steps) :
    ∃ t', Yields IxfrTransfer.next t (reports v steps) t' ∧ t'.newSOA = t.newSOA ∧
      t'.Waits [(newest v steps).soa] behind := by
  induction steps generalizing v t with
  | nil => exact ⟨t, .refl, rfl, h⟩
  | cons step steps ih =>
    obtain ⟨reader, hnext, hwaits⟩ := h.next honly.1
    obtain ⟨t', hyields, hnew, hwaits'⟩ := ih hwaits honly.2
    exact ⟨t', .step hnext hyields, hnew, hwaits'⟩

theorem IxfrTransfer.Waits.close {closed : TransferError} (h : t.Waits [v.soa] ⟨[], closed⟩)
    (hserial : v.data.serial = t.newSOA.serial) :
    ∃ t', IxfrTransfer.next t =
      (.error (if closed.isEOF then .eof else .wrap "ixfr: read past closing SOA" closed), t') := by
  obtain ⟨reader, hholds, -, hnext⟩ := h.first
  rw [if_pos hserial] at hnext
  have hpush := hholds.pushback_of_nil
  obtain ⟨hstream, hlive, hcur⟩ := hholds.stream_eq (Nat.zero_le _)
  have hout : reader.outcome = ([], if reader.protocol.isEnd closed then .eof else closed) := by
    rw [RecReader.outcome, RecReader.upstream_of_live hlive, hstream, hpush, hcur]
    rfl
  obtain ⟨t', hclose, -⟩ := @close_spec _ _ { t with reader } hout
  refine ⟨t', (hnext.trans hclose).trans ?_⟩
  rw [closingError, if_pos rfl]
  by_cases hend : reader.protocol.isEnd closed = true
  · rw [if_pos hend, if_pos (isEOF_of_isEnd hend)]
    rfl
  · rw [if_neg hend]

end Incremental

/-! ### The start of an incremental transfer -/

section Init

variable {reader : RecReader} {v : Version} {body rest : List Record} {steps : List HistoryStep} {clientSerial : UInt32}
  {behind : MessageStream}

/-- A whole zone is recognised by the record behind its SOA. -/
theorem ixfrInit_zone (h : reader.Holds (v.soa :: (body ++ [v.soa])) behind) (hpush : reader.pushback = [])
    (hbody : ∀ rec ∈ body, rec.type ≠ .soa) :
    ∃ t, IxfrTransfer.init reader clientSerial = .ok t ∧ t.newSOA = v.data ∧
      if body = [] ∧ v.serial = clientSerial then t.kind = .upToDate ∧ t.reader.Holds [] behind
      else t.kind = .axfrFallback ∧ t.emittedFirstSOA = false ∧ t.done = false ∧
        t.reader.Holds (v.soa :: (body ++ [v.soa])) behind := by
  obtain ⟨rr, hread, hholds, hpush'⟩ := RecReader.read_holds h
  cases body with
  | nil =>
    obtain ⟨rr', hread', hholds', hpush''⟩ := RecReader.read_holds hholds
    have hempty : rr'.pushback = [] := by rw [hpush'', hpush', hpush]; rfl
    by_cases hclient : v.serial = clientSerial
    · have hclient' : v.data.serial = clientSerial := hclient
      refine ⟨⟨⟨rr', v.data, false, false⟩, .upToDate, false⟩, ?_, rfl, ?_⟩
      · simp [IxfrTransfer.init, hread, hread', v.asSOA, serialIsOlder, hclient']
      · rw [if_pos ⟨rfl, hclient⟩]
        exact ⟨rfl, hholds'⟩
    · have hclient' : ¬v.data.serial = clientSerial := hclient
      refine ⟨⟨⟨(rr'.push v.soa).push v.soa, v.data, false, false⟩, .axfrFallback, false⟩, ?_, rfl, ?_⟩
      · simp [IxfrTransfer.init, hread, hread', v.asSOA, serialIsOlder, hclient']
      · rw [if_neg fun hsame => hclient hsame.2]
        exact ⟨rfl, rfl, rfl, hholds'.push_push hempty⟩
  | cons rec body =>
    obtain ⟨rr', hread', hholds', hpush''⟩ := RecReader.read_holds hholds
    have hempty : rr'.pushback = [] := by rw [hpush'', hpush', hpush]; rfl
    have hnone : rec.asSOA = none := by
      cases hsoa : rec.asSOA with
      | none => rfl
      | some soa => exact absurd (Record.type_of_asSOA hsoa) (hbody rec (.head _))
    refine ⟨⟨⟨(rr'.push v.soa).push rec, v.data, false, false⟩, .axfrFallback, false⟩, ?_, rfl, ?_⟩
    · simp [IxfrTransfer.init, hread, hread', v.asSOA, hnone]
    · rw [if_neg fun hsame => cons_ne_nil rec body hsame.1]
      exact ⟨rfl, rfl, rfl, hholds'.push_push hempty⟩

theorem ixfrInit_differences (h : reader.Holds (response v steps) behind) (hpush : reader.pushback = [])
    (holder : serialIsOlder v.serial (newest v steps).serial = true) :
    ∃ t, IxfrTransfer.init reader clientSerial = .ok t ∧ t.newSOA = (newest v steps).data ∧
      t.Waits (differences v steps ++ [(newest v steps).soa]) behind := by
  obtain ⟨rest, hrest⟩ := differences_eq_cons v steps
  rw [response, hrest] at h
  obtain ⟨rr, hread, hholds, hpush'⟩ := RecReader.read_holds h
  obtain ⟨rr', hread', hholds', hpush''⟩ := RecReader.read_holds hholds
  have hempty : rr'.pushback = [] := by rw [hpush'', hpush', hpush]; rfl
  have holder' : serialIsOlder v.data.serial (newest v steps).data.serial = true := holder
  refine ⟨⟨⟨rr'.push v.soa, (newest v steps).data, false, false⟩, .incremental, false⟩, ?_, rfl, rfl, rfl, ?_,
    by simp [RecReader.push, hempty]⟩
  · simp [IxfrTransfer.init, hread, hread', v.asSOA, (newest v steps).asSOA, holder']
  · rw [hrest]
    exact hholds'.push hempty

end Init

/-! ### The calls that a transfer makes -/

/-- The calls of the stream's `Next` from one state to a later one: one for each message, and one that reported the end.
-/
def nextCalls (start later : RecReader) : Nat :=
  start.stream.messages.length - later.stream.messages.length + if later.msgEOF then 1 else 0

theorem RecReader.Holds.nextCalls {rr : RecReader} {recs : List Record} {behind : MessageStream}
    (h : rr.Holds recs behind) (hlength : recs.length ≤ rr.pushback.length) {protocol : Protocol}
    {messages : List Message} {verifier : Option Verifier} {wantID : UInt16} {wantQ : Question} :
    nextCalls (newReader protocol ⟨messages ++ behind.messages, behind.closed⟩ verifier wantID wantQ) rr =
      messages.length ∧ rr.stream = behind := by
  grind [stream_eq, nextCalls, newReader]

/-- **Where transfers stop.** A transfer of a whole zone calls the stream once for each message of the response and
leaves alone what is behind it. So does an incremental one up to its last difference; the `Next` behind that calls the
stream again. -/
theorem transfer_stops (wantID : UInt16) (wantQ : Question) (verifier : Option Verifier) (clientSerial : UInt32)
    (v : Version) (messages : List Message) (behind : MessageStream) :
    (∀ body, (∀ rec ∈ body, rec.type ≠ .soa) → Splits wantID wantQ verifier messages (v.soa :: (body ++ [v.soa])) →
      (∃ t t', IxfrTransfer.init (newReader .ixfr ⟨messages ++ behind.messages, behind.closed⟩ verifier wantID wantQ)
          clientSerial = .ok t ∧
        Drains IxfrTransfer.next t
          (if body = [] ∧ v.serial = clientSerial then [] else (v.soa :: (body ++ [v.soa])).map Event.record) .eof t' ∧
        nextCalls (newReader .ixfr ⟨messages ++ behind.messages, behind.closed⟩ verifier wantID wantQ) t'.reader =
          messages.length ∧ t'.reader.stream = behind) ∧
      (∃ t t', ZoneTransfer.init (newReader .axfr ⟨messages ++ behind.messages, behind.closed⟩ verifier wantID wantQ) =
          .ok t ∧
        Drains ZoneTransfer.next t (v.soa :: (body ++ [v.soa])) .eof t' ∧
        nextCalls (newReader .axfr ⟨messages ++ behind.messages, behind.closed⟩ verifier wantID wantQ) t'.reader =
          messages.length ∧ t'.reader.stream = behind)) ∧
    (∀ steps closed, serialIsOlder v.serial (newest v steps).serial = true → OnlyLast (newest v steps).serial v steps →
      Splits wantID wantQ verifier messages (response v steps) →
      ∃ t last t', IxfrTransfer.init (newReader .ixfr ⟨messages, closed⟩ verifier wantID wantQ) clientSerial = .ok t ∧
        Yields IxfrTransfer.next t (reports v steps) last ∧
        nextCalls (newReader .ixfr ⟨messages, closed⟩ verifier wantID wantQ) last.reader = messages.length ∧
        last.reader.stream = ⟨[], closed⟩ ∧
        IxfrTransfer.next last =
          (.error (if closed.isEOF then .eof else .wrap "ixfr: read past closing SOA" closed), t')) := by
  refine ⟨fun body hbody hsplits => ⟨?_, ?_⟩, fun steps closed holder honly hsplits => ?_⟩
  · obtain ⟨t, hinit, hnew, hstart⟩ := @ixfrInit_zone _ _ _ clientSerial _
      (@holds_newReader _ _ _ _ _ behind .ixfr hsplits) rfl hbody
    by_cases hsame : body = [] ∧ v.serial = clientSerial
    · rw [if_pos hsame] at hstart ⊢
      refine ⟨t, t, hinit, .stop ?_, hstart.2.nextCalls (Nat.zero_le _)⟩
      rw [IxfrTransfer.next, hstart.1]
    · rw [if_neg hsame] at hstart ⊢
      obtain ⟨hkind, hseen, hdone, hholds⟩ := hstart
      obtain ⟨z, hdrains, hholds'⟩ := drains_zone hdone hseen (by rw [hnew]; exact v.isBracket)
        (fun rec hrec => isBracket_of_type (hbody rec hrec)) (by rw [hnew]; exact v.isBracket) hholds
      exact ⟨t, _, hinit, drains_fallback hdrains rfl hkind, hholds'.nextCalls (Nat.zero_le _)⟩
  · obtain ⟨reader, hinit, hholds⟩ := zoneInit_of_holds (@holds_newReader _ _ _ _ _ behind .axfr hsplits) rfl v.asSOA
    obtain ⟨z, hdrains, hholds'⟩ := @drains_zone ⟨reader, v.data, false, false⟩ _ _ _ _ rfl rfl v.isBracket
      (fun rec hrec => isBracket_of_type (hbody rec hrec)) v.isBracket hholds
    exact ⟨_, z, hinit, hdrains, hholds'.nextCalls (Nat.zero_le _)⟩
  · have hreader := @holds_newReader _ _ _ _ _ ⟨[], closed⟩ .ixfr hsplits
    rw [append_nil] at hreader
    obtain ⟨t, hinit, hnew, hwaits⟩ := @ixfrInit_differences _ _ _ clientSerial _ hreader rfl holder
    obtain ⟨last, hyields, hnew', hlast⟩ := yields_differences hwaits (by rw [hnew]; exact honly)
    obtain ⟨t', hclose⟩ := hlast.close (by rw [hnew', hnew])
    obtain ⟨hcalls, hstream⟩ := @RecReader.Holds.nextCalls _ _ _ hlast.holds (by rw [hlast.pushback]; rfl) .ixfr messages
      verifier wantID wantQ
    rw [append_nil] at hcalls
    exact ⟨t, last, t', hinit, hyields, hcalls, hstream, hclose⟩

/-! ### A connection that stays open -/

def timedOut : TransferError := .stream "i/o timeout"

def sampleDifference : List Message := [sampleMessage [soaRecord 2, soaRecord 1, soaRecord 2, nsRecord, soaRecord 2]]

/-- The response is complete, but `Next` reports the error of the read behind it. -/
theorem ixfr_reads_past : ∃ t last t',
    IxfrTransfer.init (newReader .ixfr ⟨sampleDifference, timedOut⟩ none 7 sampleQuestion) 1 = .ok t ∧
      Yields IxfrTransfer.next t [.diff 1 2 [] [nsRecord]] last ∧ last.reader.stream = ⟨[], timedOut⟩ ∧
      IxfrTransfer.next last = (.error (.wrap "ixfr: read past closing SOA" timedOut), t') :=
  ⟨_, _, _, rfl, .step rfl .refl, rfl, rfl⟩

theorem transfer_stops_sample :
    (∃ t t', IxfrTransfer.init (newReader .ixfr ⟨[sampleMessage [soaRecord 2], sampleMessage [nsRecord, soaRecord 2]],
        timedOut⟩ none 7 sampleQuestion) 1 = .ok t ∧
      Drains IxfrTransfer.next t [.record (soaRecord 2), .record nsRecord, .record (soaRecord 2)] .eof t' ∧
      t'.reader.stream = ⟨[], timedOut⟩) ∧
    ∃ t t', IxfrTransfer.init (newReader .ixfr ⟨sampleDifference, .eof⟩ none 7 sampleQuestion) 1 = .ok t ∧
      Drains IxfrTransfer.next t [.diff 1 2 [] [nsRecord]] .eof t' := by
  constructor
  · obtain ⟨⟨t, t', hinit, hdrains, -, hstream⟩, -⟩ := (transfer_stops 7 sampleQuestion none 1 (sampleVersion 2)
      [sampleMessage [soaRecord 2], sampleMessage [nsRecord, soaRecord 2]] ⟨[], timedOut⟩).1 [nsRecord] (by decide)
      ⟨rfl, ⟨rfl, rfl, trivial⟩, by decide⟩
    exact ⟨t, t', hinit, hdrains, hstream⟩
  · obtain ⟨t, last, t', hinit, hyields, -, -, hnext⟩ := (transfer_stops 7 sampleQuestion none 1 (sampleVersion 1)
      sampleDifference ⟨[], .eof⟩).2 [sampleStep] .eof (by decide) ⟨by decide, trivial⟩ ⟨rfl, ⟨rfl, trivial⟩, by decide⟩
    exact ⟨t, t', hinit, hyields.drains hnext⟩

end Acidns.Transfer
