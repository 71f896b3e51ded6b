import Acidns.Transfer.History

/-!
# When a transfer may report its end

A consumer takes `io.EOF` for the end of the zone. It should get it only once the closing SOA has
been read: an SOA of the apex, with the serial of the leading one, behind that. The iterators compare
serials but not owners, and they pass the end of the stream on as it is; and a consumer that goes on
after another error comes to the end of the stream too. So this depends on the records of the stream,
those behind a refused envelope included.
-/

namespace Acidns.Transfer

open List

/-! ### Reading on -/

/-- The records of the envelopes that are accepted, in front of and behind those that are refused. -/
def delivered (wantID : UInt16) (wantQ : Question) : (messages : List Message) → Option Verifier → List Record
  | [], _ => []
  | m :: ms, v =>
    match examine wantID wantQ v m with
    | (.error _, v') => delivered wantID wantQ ms v'
    | (.ok (), v') => m.answers ++ delivered wantID wantQ ms v'

namespace RecReader

/-- What the reader hands out to a consumer that reads on after every error. -/
def pending (rr : RecReader) : List Record :=
  rr.pushback ++ rr.cur ++ if rr.msgEOF then [] else delivered rr.wantID rr.wantQ rr.stream.messages rr.verifier

/-- Bounds the calls up to the end of the stream. -/
def left (rr : RecReader) : Nat := rr.pending.length + rr.stream.messages.length

/-- Between the two states the records `recs` have been read. -/
structure Advance (rr : RecReader) (recs : List Record) (rr' : RecReader) : Prop where
  pending : rr.pending = recs ++ rr'.pending
  messages : rr'.stream.messages.length ≤ rr.stream.messages.length
  closed : rr'.stream.closed = rr.stream.closed

variable {rr rr' rr'' : RecReader} {rec : Record} {recs recs' : List Record} {e : TransferError}

theorem Advance.refl (rr : RecReader) : Advance rr [] rr := ⟨rfl, le_rfl, rfl⟩

theorem Advance.trans (h : Advance rr recs rr') (h' : Advance rr' recs' rr'') : Advance rr (recs ++ recs') rr'' where
  pending := by rw [h.pending, h'.pending, append_assoc]
  messages := h'.messages.trans h.messages
  closed := h'.closed.trans h.closed

theorem Advance.left_lt (h : Advance rr recs rr') (hrecs : recs ≠ []) : rr'.left < rr.left := by
  have hpos := length_pos_of_ne_nil hrecs
  have hle := h.messages
  rw [left, left, h.pending, length_append]
  omega

theorem Advance.push (h : Advance rr (recs ++ [rec]) rr') (hpush : rr'.pushback = []) :
    Advance rr recs (rr'.push rec) where
  pending := by
    rw [h.pending, append_assoc]
    simp [RecReader.pending, RecReader.push, hpush]
  messages := h.messages
  closed := h.closed

/-- What a read does: it hands out the next record, refuses an envelope, or is at the end of the stream. -/
structure ReadStep (rr : RecReader) (r : Except TransferError Record) (rr' : RecReader) : Prop where
  pushback : rr'.pushback = rr.pushback.tail
  advance : Advance rr r.toOption.toList rr'
  eof : ∀ e, r = .error e → e.isEOF → rr'.pending = []
  refused : ∀ e, r = .error e → e.isEOF = false → rr'.left < rr.left

theorem ReadStep.of_ok (hpush : rr'.pushback = rr.pushback.tail) (h : Advance rr [rec] rr') :
    ReadStep rr (.ok rec) rr' where
  pushback := hpush
  advance := h
  eof _ he := by cases he
  refused _ he := by cases he

/-- Fetching moves on to the next record that will be delivered. -/
theorem fetch_step (ms : List Message) (rr : RecReader) (hpush : rr.pushback = []) (hcur : rr.cur = [])
    (heof : rr.msgEOF = false) (hms : rr.stream.messages = ms) (hclosed : rr.stream.closed = .eof) :
    ReadStep rr (fetch ms rr).1 (fetch ms rr).2 := by
  have hpending : rr.pending = delivered rr.wantID rr.wantQ ms rr.verifier := by
    simp [pending, hpush, hcur, heof, hms]
  have htail : rr.pushback = rr.pushback.tail := by rw [hpush]; rfl
  induction ms generalizing rr with
  | nil =>
    have hfetch : fetch [] rr = (.error .eof, { rr with msgEOF := true }) := by
      rw [fetch, hclosed, if_pos (by cases rr.protocol <;> rfl)]
    have hend : ({ rr with msgEOF := true } : RecReader).pending = [] := by simp [pending, hpush, hcur]
    rw [hfetch]
    exact ⟨htail, ⟨hpending.trans hend.symm, le_rfl, rfl⟩, fun _ _ _ => hend,
      fun e he hne => by cases he; cases hne⟩
  | cons m ms ih =>
    rw [delivered] at hpending
    have hlength : ms.length < rr.stream.messages.length := by rw [hms]; exact Nat.lt_succ_self _
    rw [fetch]
    rcases hexamine : examine rr.wantID rr.wantQ rr.verifier m with ⟨e | u, v⟩
    · rw [hexamine] at hpending
      have hrest : rr.pending = ({ rr with stream.messages := ms, verifier := v } : RecReader).pending := by
        rw [hpending]
        simp [pending, hpush, hcur, heof]
      refine ⟨htail, ⟨hrest, hlength.le, rfl⟩, fun e' he' heof' => ?_, fun _ _ _ => ?_⟩
      · cases he'
        rw [isEOF_examine (congrArg Prod.fst hexamine)] at heof'
        cases heof'
      · rw [left, left, hrest]
        exact Nat.add_lt_add_left hlength _
    · rw [hexamine] at hpending
      cases hanswers : m.answers with
      | cons rec cur =>
        refine .of_ok htail ⟨?_, hlength.le, rfl⟩
        rw [hpending]
        simp [pending, hpush, heof, hanswers]
      | nil =>
        have hrest : rr.pending = ({ rr with stream.messages := ms, verifier := v, cur := [] } : RecReader).pending := by
          rw [hpending]
          simp [pending, hpush, heof, hanswers]
        have hstep := ih { rr with stream.messages := ms, verifier := v, cur := [] } hpush rfl heof rfl hclosed
          (by simp [pending, hpush, heof]) htail
        have hadvance : Advance rr [] { rr with stream.messages := ms, verifier := v, cur := [] } :=
          ⟨hrest, hlength.le, rfl⟩
        have hleft : ({ rr with stream.messages := ms, verifier := v, cur := [] } : RecReader).left < rr.left := by
          rw [left, left, hrest]
          exact Nat.add_lt_add_left hlength _
        exact ⟨hstep.pushback, hadvance.trans hstep.advance, hstep.eof,
          fun e he hne => (hstep.refused e he hne).trans hleft⟩

theorem read_step (hclosed : rr.stream.closed = .eof) : ReadStep rr (read rr).1 (read rr).2 := by
  cases hpush : rr.pushback with
  | cons rec pushback =>
    have hread : read rr = (.ok rec, { rr with pushback }) := by rw [read, hpush]
    rw [hread]
    exact .of_ok (by rw [hpush]; rfl) ⟨by simp [pending, hpush], le_rfl, rfl⟩
  | nil =>
    cases hcur : rr.cur with
    | cons rec cur =>
      have hread : read rr = (.ok rec, { rr with cur }) := by rw [read, hpush, hcur]
      rw [hread]
      exact .of_ok (by rw [hpush, tail_nil]) ⟨by simp [pending, hpush, hcur], le_rfl, rfl⟩
    | nil =>
      cases heof : rr.msgEOF with
      | true =>
        have hread : read rr = (.error .eof, rr) := by rw [read, hpush, hcur, heof]; rfl
        rw [hread]
        exact ⟨by rw [hpush]; rfl, .refl rr, fun _ _ _ => by simp [pending, hpush, hcur, heof],
          fun e he hne => by cases he; cases hne⟩
      | false =>
        have hread : read rr = fetch rr.stream.messages rr := by rw [read, hpush, hcur, heof]; rfl
        rw [hread]
        exact fetch_step _ rr hpush hcur heof rfl hclosed

theorem advance_of_read (hclosed : rr.stream.closed = .eof) (h : read rr = (.ok rec, rr')) :
    Advance rr [rec] rr' ∧ rr'.pushback = rr.pushback.tail := by
  have hstep := read_step hclosed
  rw [h] at hstep
  exact ⟨hstep.advance, hstep.pushback⟩

theorem advance_of_read_error (hclosed : rr.stream.closed = .eof) (h : read rr = (.error e, rr')) :
    Advance rr [] rr' ∧ if e.isEOF then rr'.pending = [] else rr'.left < rr.left := by
  have hstep := read_step hclosed
  rw [h] at hstep
  refine ⟨hstep.advance, ?_⟩
  split
  · next heof => exact hstep.eof e rfl heof
  · next heof => exact hstep.refused e rfl (Bool.eq_false_of_not_eq_true heof)

end RecReader

open RecReader (Advance advance_of_read advance_of_read_error)

/-! ### The closing SOA -/

/-- The record is the SOA that ends the transfer. -/
def IsClosing (apex : Name) (serial : UInt32) (rec : Record) : Prop := rec.name = apex ∧ isBracket serial rec = true

instance (apex : Name) (serial : UInt32) (rec : Record) : Decidable (IsClosing apex serial rec) :=
  inferInstanceAs (Decidable (_ ∧ _))

def ClosingRead (start later : RecReader) (serial : UInt32) : Prop :=
  ∃ leading read, start.pending = leading :: read ++ later.pending ∧ ∃ rec ∈ read, IsClosing start.wantQ.name serial rec

/-- An `io.EOF` from any call, also behind other errors, means that the closing SOA has been read. -/
def EndsClosed {σ α : Type} (next : Program σ TransferError α) (reader : σ → RecReader) (start : RecReader)
    (serial : UInt32) (t : σ) : Prop :=
  ∀ k e t', next (next.after k t) = (.error e, t') → e.isEOF → ClosingRead start (reader t') serial

/-- Each call ends the stream or leaves less of it, so some call comes to its end. -/
theorem endsClosed_iff_of {σ α : Type} {next : Program σ TransferError α} {reader : σ → RecReader} {start : RecReader}
    {serial : UInt32} {inv : σ → Prop} {closed : Prop} {t : σ} (hkeeps : ∀ t, inv t → inv (next t).2)
    (hleft : ∀ t, inv t → (∃ e, (next t).1 = .error e ∧ e.isEOF = true) ∨ (reader (next t).2).left < (reader t).left)
    (hclosing : ∀ t e t', inv t → next t = (.error e, t') → e.isEOF = true →
      (ClosingRead start (reader t') serial ↔ closed)) (h : inv t) : EndsClosed next reader start serial t ↔ closed := by
  constructor
  · intro hends
    obtain ⟨k, e, herror, heof⟩ := Program.exists_after (fun t => (reader t).left) hkeeps hleft h
    have hnext : next (next.after k t) = (.error e, (next (next.after k t)).2) := Prod.ext herror rfl
    exact (hclosing _ e _ (Program.after_keeps hkeeps h k) hnext heof).mp (hends k e _ hnext heof)
  · intro hclosed k e t' hnext heof
    exact (hclosing _ e _ (Program.after_keeps hkeeps h k) hnext heof).mpr hclosed

/-- The first record behind the leading SOA with its serial is at the apex. -/
def ZoneClosed (apex : Name) (serial : UInt32) (behind : List Record) : Prop :=
  ∃ rec, behind.find? (isBracket serial) = some rec ∧ rec.name = apex

/-- A record behind the leading SOA closes the transfer. -/
def DiffsClosed (apex : Name) (serial : UInt32) (behind : List Record) : Prop :=
  ∃ rec ∈ behind, IsClosing apex serial rec

/-! ### Whole zones -/

section Zone

variable {start : RecReader} {leading : Record} {behind : List Record} {serial : UInt32} {t t' : ZoneTransfer}
  {e : TransferError}

/-- How far an iterator over a zone has come in `leading :: behind`. -/
inductive Passed (leading : Record) (behind : List Record) (serial : UInt32) (t : ZoneTransfer) : Prop
  | start (hfirst : t.emittedFirstSOA = false) (hdone : t.done = false) (h : t.reader.pending = leading :: behind)
  | inside (hfirst : t.emittedFirstSOA = true) (hdone : t.done = false) (read : List Record)
      (h : behind = read ++ t.reader.pending) (hread : ∀ rec ∈ read, isBracket serial rec = false)
  | closed (hdone : t.done = true) (read : List Record) (rec : Record)
      (h : behind = read ++ rec :: t.reader.pending) (hread : ∀ rec ∈ read, isBracket serial rec = false)
      (hrec : isBracket serial rec = true)

/-- What holds of a zone iterator on a stream that just ends. -/
structure ZoneAt (leading : Record) (behind : List Record) (serial : UInt32) (t : ZoneTransfer) : Prop where
  newSOA : t.newSOA.serial = serial
  closed : t.reader.stream.closed = .eof
  passed : Passed leading behind serial t

variable (hleading : isBracket serial leading = true)

include hleading in
/-- A call keeps the place in the stream, and ends it or moves on. -/
theorem ZoneAt.next (h : ZoneAt leading behind serial t) : ZoneAt leading behind serial (ZoneTransfer.next t).2 ∧
    ((∃ e, (ZoneTransfer.next t).1 = .error e ∧ e.isEOF = true) ∨ (ZoneTransfer.next t).2.reader.left < t.reader.left) := by
  by_cases hdone : t.done = true
  · have hnext : ZoneTransfer.next t = (.error .eof, t) := if_pos hdone
    rw [hnext]
    exact ⟨h, .inl ⟨_, rfl, rfl⟩⟩
  rcases hread : t.reader.read with ⟨e | rec, reader⟩
  · have hnext : ZoneTransfer.next t = (.error e, { t with reader }) := by
      rw [ZoneTransfer.next, if_neg hdone, hread]
    obtain ⟨hadvance, hstep⟩ := advance_of_read_error h.closed hread
    rw [hnext]
    refine ⟨⟨h.newSOA, hadvance.closed.trans h.closed, ?_⟩, ?_⟩
    · have hpending := hadvance.pending
      rw [nil_append] at hpending
      obtain ⟨hfirst, hdone, hp⟩ | ⟨hfirst, hdone, read, hp, hread⟩ | ⟨hdone', _⟩ := h.passed
      · exact .start hfirst hdone (hpending ▸ hp)
      · exact .inside hfirst hdone read (hpending ▸ hp) hread
      · exact absurd hdone' hdone
    · split at hstep
      · next heof => exact .inl ⟨e, rfl, heof⟩
      · exact .inr hstep
  · have hnext : ZoneTransfer.next t = (.ok rec, { t.note rec with reader }) := by
      rw [ZoneTransfer.next, if_neg hdone, hread]
    obtain ⟨hadvance, -⟩ := advance_of_read h.closed hread
    rw [hnext]
    have hpending : t.reader.pending = rec :: reader.pending := hadvance.pending
    refine ⟨⟨?_, hadvance.closed.trans h.closed, ?_⟩, .inr (hadvance.left_lt (cons_ne_nil _ _))⟩
    · rw [← h.newSOA]
      simp only [ZoneTransfer.note]
      split_ifs <;> rfl
    · obtain ⟨hfirst, hdone, hp⟩ | ⟨hfirst, hdone, read, hp, hread⟩ | ⟨hdone', _⟩ := h.passed
      · rw [hpending] at hp
        obtain ⟨rfl, hbehind⟩ := cons_eq_cons.mp hp
        refine .inside ?_ ?_ [] hbehind.symm (forall_mem_nil _) <;>
          simp [ZoneTransfer.note, h.newSOA, hleading, hfirst, hdone]
      · rw [hpending] at hp
        by_cases hrec : isBracket serial rec = true
        · refine .closed ?_ read rec hp hread hrec
          simp [ZoneTransfer.note, h.newSOA, hrec, hfirst]
        · refine .inside ?_ ?_ (read ++ [rec]) (by rw [append_assoc]; exact hp) ?_
          · simp [ZoneTransfer.note, h.newSOA, hrec, hfirst]
          · simp [ZoneTransfer.note, h.newSOA, hrec, hdone]
          · exact forall_mem_append.mpr ⟨hread, forall_mem_singleton.mpr (by simpa using hrec)⟩
      · exact absurd hdone' hdone

variable (hstart : start.pending = leading :: behind)

include hstart in
/-- At an `io.EOF`, what has been read ends at the first record with the serial, or there is none. -/
theorem ZoneAt.closingRead_iff_zoneClosed (h : ZoneAt leading behind serial t) (hnext : ZoneTransfer.next t = (.error e, t'))
    (heof : e.isEOF = true) :
    ClosingRead start t'.reader serial ↔ ZoneClosed start.wantQ.name serial behind := by
  have hread : ∀ {rest read : List Record}, t'.reader.pending = rest → behind = read ++ rest →
      (ClosingRead start t'.reader serial ↔ ∃ rec ∈ read, IsClosing start.wantQ.name serial rec) := by
    intro rest read hrest hbehind
    rw [ClosingRead, hstart, hrest, hbehind]
    refine ⟨?_, fun hrec => ⟨leading, read, rfl, hrec⟩⟩
    rintro ⟨leading', read', heq, hrec⟩
    rwa [append_cancel_right (cons_eq_cons.mp heq).2]
  by_cases hdone : t.done = true
  · obtain rfl : t = t' := by
      rw [ZoneTransfer.next, if_pos hdone] at hnext
      exact congrArg Prod.snd hnext
    obtain ⟨-, hdone', _⟩ | ⟨-, hdone', _⟩ | ⟨-, read, rec, hbehind, hbefore, hrec⟩ := h.passed
    · rw [hdone] at hdone'
      cases hdone'
    · rw [hdone] at hdone'
      cases hdone'
    · have hfind : behind.find? (isBracket serial) = some rec := by
        rw [hbehind, find?_append, find?_eq_none.mpr fun r hr => by simp [hbefore r hr]]
        simp [hrec]
      have hsplit : behind = (read ++ [rec]) ++ t.reader.pending := by rw [append_assoc]; exact hbehind
      rw [hread rfl hsplit, ZoneClosed, hfind]
      constructor
      · rintro ⟨rec', hmem, howner, hbracket⟩
        rcases mem_append.mp hmem with hmem | hmem
        · rw [hbefore rec' hmem] at hbracket
          cases hbracket
        · exact ⟨rec, rfl, mem_singleton.mp hmem ▸ howner⟩
      · rintro ⟨rec', hsome, howner⟩
        cases hsome
        exact ⟨rec, by simp, howner, hrec⟩
  · rcases hstep : t.reader.read with ⟨e' | rec, reader⟩
    · rw [ZoneTransfer.next, if_neg hdone, hstep] at hnext
      cases hnext
      obtain ⟨hadvance, hend⟩ := advance_of_read_error h.closed hstep
      rw [if_pos heof] at hend
      have hpending : t.reader.pending = [] := by rw [hadvance.pending, hend]; rfl
      obtain ⟨-, -, hp⟩ | ⟨-, -, read, hp, hbefore⟩ | ⟨hdone', _⟩ := h.passed
      · rw [hpending] at hp
        cases hp
      · rw [hpending] at hp
        have hnone : behind.find? (isBracket serial) = none :=
          find?_eq_none.mpr fun r hr => by simp [hbefore r (by simpa [hp] using hr)]
        rw [hread hend hp, ZoneClosed, hnone]
        constructor
        · rintro ⟨rec, hmem, -, hbracket⟩
          rw [hbefore rec hmem] at hbracket
          cases hbracket
        · rintro ⟨rec, hnot, -⟩
          cases hnot
      · exact absurd hdone' hdone
    · rw [ZoneTransfer.next, if_neg hdone, hstep] at hnext
      cases hnext

include hstart in
theorem ZoneAt.endsClosed_iff (h : ZoneAt leading behind serial t) (hleading : isBracket serial leading = true) :
    EndsClosed ZoneTransfer.next ZoneTransfer.reader start serial t ↔ ZoneClosed start.wantQ.name serial behind :=
  endsClosed_iff_of (fun _ h => (h.next hleading).1) (fun _ h => (h.next hleading).2)
    (fun _ _ _ h hnext heof => h.closingRead_iff_zoneClosed hstart hnext heof) h

end Zone

/-! ### Differences -/

section Differences

variable {start rr rr' : RecReader} {leading : Record} {behind recs : List Record} {serial : UInt32}
  {t t' : IxfrTransfer} {e : TransferError}

/-- Reading up to a SOA. -/
theorem untilSOA_advance {fuel : Nat} {r : Except TransferError (List Record × Record)}
    (hclosed : rr.stream.closed = .eof) (hpush : rr.pushback = []) (h : IxfrTransfer.untilSOA fuel rr = (r, rr')) :
    rr'.pushback = [] ∧ match r with
      | .ok (front, soa) => Advance rr (front ++ [soa]) rr'
      | .error e => (∃ recs, Advance rr recs rr') ∧ (e.isEOF → rr'.pending = []) := by
  induction fuel generalizing rr r with
  | zero =>
    cases h
    exact ⟨hpush, ⟨[], .refl _⟩, fun heof => by cases heof⟩
  | succ fuel ih =>
    rw [IxfrTransfer.untilSOA] at h
    have hstep := RecReader.read_step hclosed
    rcases hread : rr.read with ⟨e | rec, rr₁⟩ <;> rw [hread] at hstep
    · rw [Program.bind_of_error hread] at h
      cases h
      exact ⟨by rw [hstep.pushback, hpush]; rfl, ⟨_, hstep.advance⟩, hstep.eof e rfl⟩
    · rw [Program.bind_of_ok hread] at h
      have hpush₁ : rr₁.pushback = [] := by rw [hstep.pushback, hpush]; rfl
      split at h
      · cases h
        exact ⟨hpush₁, hstep.advance⟩
      · rcases huntil : IxfrTransfer.untilSOA fuel rr₁ with ⟨e | ⟨front, soa⟩, rr₂⟩
        · rw [Program.bind_of_error huntil] at h
          cases h
          obtain ⟨hpush₂, ⟨recs, hadvance⟩, heof⟩ := ih (hstep.advance.closed.trans hclosed) hpush₁ huntil
          exact ⟨hpush₂, ⟨_, hstep.advance.trans hadvance⟩, heof⟩
        · rw [Program.bind_of_ok huntil] at h
          cases h
          obtain ⟨hpush₂, hadvance⟩ := ih (hstep.advance.closed.trans hclosed) hpush₁ huntil
          exact ⟨hpush₂, hstep.advance.trans hadvance⟩

/-- What a call of the iterator over differences does to it: it reads records, and an `io.EOF` means that none is left.
-/
structure DiffCall (t : IxfrTransfer) (recs : List Record) (r : Except TransferError Event) (t' : IxfrTransfer) :
    Prop where
  advance : Advance t.reader recs t'.reader
  newSOA : t'.newSOA = t.newSOA
  kind : t'.kind = t.kind
  pushback : t'.reader.pushback.length ≤ 1
  done : t'.incDone = true → t'.reader.pending = []
  eof : ∀ e, r = .error e → e.isEOF → t'.reader.pending = []

/-- An error that is reported after the reader has gone on to `rr`. -/
theorem DiffCall.of_error (h : Advance t.reader recs rr) (hpush : rr.pushback = []) (hdone : t.incDone = false)
    (heof : e.isEOF → rr.pending = []) : DiffCall t recs (.error e) { t with reader := rr } where
  advance := h
  newSOA := rfl
  kind := rfl
  pushback := by rw [hpush]; exact Nat.zero_le _
  done htrue := by
    rw [show t.incDone = true from htrue] at hdone
    cases hdone
  eof e' he' heof' := by
    cases he'
    exact heof heof'

theorem close_call (hclosed : t.reader.stream.closed = .eof) (hpush : t.reader.pushback = []) (hdone : t.incDone = false) :
    ∃ recs, DiffCall t recs (IxfrTransfer.close t).1 (IxfrTransfer.close t).2 := by
  have hstep := RecReader.read_step hclosed
  rcases hread : t.reader.read with ⟨e | rec, rr⟩ <;> rw [hread] at hstep
  · have hempty : rr.pushback = [] := by rw [hstep.pushback, hpush]; rfl
    have hattempt : Program.attempt RecReader.read t.reader = (.ok (.error e), rr) := by
      simp [Program.attempt, hread]
    rw [IxfrTransfer.close, Program.bind_of_ok (onReader_of_eq hattempt)]
    by_cases heof : e.isEOF = true
    · simp only [heof, if_true]
      exact ⟨_, hstep.advance, rfl, rfl, le_of_eq_of_le (congrArg List.length hempty) (Nat.zero_le 1),
        fun _ => hstep.eof e rfl heof, fun _ _ _ => hstep.eof e rfl heof⟩
    · simp only [heof]
      exact ⟨_, .of_error hstep.advance hempty hdone fun h => absurd h heof⟩
  · have hempty : rr.pushback = [] := by rw [hstep.pushback, hpush]; rfl
    have hattempt : Program.attempt RecReader.read t.reader = (.ok (.ok rec), rr) := by
      simp [Program.attempt, hread]
    rw [IxfrTransfer.close, Program.bind_of_ok (onReader_of_eq hattempt)]
    exact ⟨_, .of_error hstep.advance hempty hdone fun heof => by cases heof⟩

theorem DiffCall.of_advance {r : Except TransferError Event} (h : Advance t.reader recs rr)
    (hcall : ∃ recs, DiffCall { t with reader := rr } recs r t') : ∃ recs', DiffCall t (recs ++ recs') r t' := by
  obtain ⟨recs', hcall⟩ := hcall
  exact ⟨recs', h.trans hcall.advance, hcall.newSOA, hcall.kind, hcall.pushback, hcall.done, hcall.eof⟩

theorem isEOF_of_addedError (h : (IxfrTransfer.addedError e).isEOF = true) : e.isEOF = true := by
  rw [IxfrTransfer.addedError] at h
  split at h
  · cases h
  · exact h

theorem subDiff_call (fuel : Nat) (fromSerial : UInt32) (hclosed : t.reader.stream.closed = .eof)
    (hpush : t.reader.pushback = []) (hdone : t.incDone = false) : ∃ recs,
      DiffCall t recs (IxfrTransfer.subDiff fuel fromSerial t).1 (IxfrTransfer.subDiff fuel fromSerial t).2 := by
  rw [IxfrTransfer.subDiff]
  rcases huntil : IxfrTransfer.untilSOA fuel t.reader with ⟨e | ⟨removed, soaNew⟩, rr⟩
  · obtain ⟨hpush₁, ⟨recs, hadvance⟩, heof⟩ := untilSOA_advance hclosed hpush huntil
    rw [Program.bind_of_error (onReader_of_eq (Program.mapError_of_error huntil))]
    exact ⟨recs, .of_error hadvance hpush₁ hdone heof⟩
  · obtain ⟨hpush₁, hadvance⟩ := untilSOA_advance hclosed hpush huntil
    rw [Program.bind_of_ok (onReader_of_eq (Program.mapError_of_ok huntil))]
    cases hnew : soaNew.asSOA with
    | none =>
      simp only [hnew]
      exact ⟨_, .of_error hadvance hpush₁ hdone fun heof => by cases heof⟩
    | some new =>
      simp only [hnew]
      have hclosed₁ := hadvance.closed.trans hclosed
      rcases huntil' : IxfrTransfer.untilSOA fuel rr with ⟨e | ⟨added, rec⟩, rr'⟩
      · obtain ⟨hpush₂, ⟨recs, hadvance'⟩, heof⟩ := untilSOA_advance hclosed₁ hpush₁ huntil'
        rw [Program.bind_of_error (onReader_of_eq (Program.mapError_of_error huntil'))]
        exact ⟨_, .of_error (hadvance.trans hadvance') hpush₂ hdone fun h => heof (isEOF_of_addedError h)⟩
      · obtain ⟨hpush₂, hadvance'⟩ := untilSOA_advance hclosed₁ hpush₁ huntil'
        rw [Program.bind_of_ok (onReader_of_eq (Program.mapError_of_ok huntil'))]
        -- the SOA behind the difference is pushed back
        refine ⟨_, hadvance.trans (hadvance'.push hpush₂), rfl, rfl, ?_, fun htrue => ?_, fun _ herror => ?_⟩
        · show (rr'.pushback ++ [rec]).length ≤ 1
          rw [hpush₂]
          rfl
        · rw [show t.incDone = true from htrue] at hdone
          cases hdone
        · cases herror

/-- What holds of an iterator over differences on a stream that just ends. -/
structure DiffAt (behind : List Record) (serial : UInt32) (t : IxfrTransfer) : Prop where
  kind : t.kind = .incremental
  newSOA : t.newSOA.serial = serial
  closed : t.reader.stream.closed = .eof
  pushback : t.reader.pushback.length ≤ 1
  done : t.incDone = true → t.reader.pending = []
  passed : ∃ read, behind = read ++ t.reader.pending

theorem DiffAt.call (h : DiffAt behind serial t) : ∃ recs,
    DiffCall t recs (IxfrTransfer.next t).1 (IxfrTransfer.next t).2 ∧
      ((∃ e, (IxfrTransfer.next t).1 = .error e ∧ e.isEOF = true) ∨
        (IxfrTransfer.next t).2.reader.left < t.reader.left) := by
  rw [IxfrTransfer.next, h.kind]
  simp only [IxfrTransfer.nextIncremental]
  cases hdone : t.incDone with
  | true =>
    exact ⟨[], ⟨.refl _, rfl, rfl, h.pushback, fun _ => h.done hdone, fun _ _ _ => h.done hdone⟩, .inl ⟨_, rfl, rfl⟩⟩
  | false =>
    rw [if_neg Bool.false_ne_true]
    have hstep := RecReader.read_step h.closed
    have hempty : (RecReader.read t.reader).2.pushback = [] := by
      have hle := h.pushback
      rw [hstep.pushback]
      exact length_eq_zero_iff.mp (by rw [length_tail]; omega)
    rcases hread : t.reader.read with ⟨e | soaOld, rr⟩ <;> rw [hread] at hstep hempty
    · rw [Program.bind_of_error (onReader_of_eq (Program.mapError_of_error hread))]
      refine ⟨[], .of_error hstep.advance hempty hdone (hstep.eof e rfl), ?_⟩
      cases heof : e.isEOF with
      | true => exact .inl ⟨_, rfl, heof⟩
      | false => exact .inr (hstep.refused e rfl heof)
    · rw [Program.bind_of_ok (onReader_of_eq (Program.mapError_of_ok hread))]
      -- behind the first record, whatever the call does leaves less
      have hless : ∀ {r : Except TransferError Event} {t' : IxfrTransfer},
          (∃ recs, DiffCall t ([soaOld] ++ recs) r t') → ∃ recs, DiffCall t recs r t' ∧
            ((∃ e, r = .error e ∧ e.isEOF = true) ∨ t'.reader.left < t.reader.left) := by
        rintro r t' ⟨recs, hcall⟩
        exact ⟨_, hcall, .inr (hcall.advance.left_lt (cons_ne_nil _ _))⟩
      have hclosed := hstep.advance.closed.trans h.closed
      cases hold : soaOld.asSOA with
      | none =>
        exact hless ⟨[], .of_error hstep.advance hempty hdone fun heof => by cases heof⟩
      | some old =>
        dsimp only
        split
        · exact hless (DiffCall.of_advance hstep.advance (close_call hclosed hempty hdone))
        · exact hless (DiffCall.of_advance hstep.advance (subDiff_call _ _ hclosed hempty hdone))

theorem DiffAt.next (h : DiffAt behind serial t) : DiffAt behind serial (IxfrTransfer.next t).2 := by
  obtain ⟨recs, hcall, -⟩ := h.call
  obtain ⟨read, hread⟩ := h.passed
  refine ⟨hcall.kind.trans h.kind, ?_, hcall.advance.closed.trans h.closed, hcall.pushback, hcall.done,
    read ++ recs, ?_⟩
  · rw [hcall.newSOA]
    exact h.newSOA
  · rw [append_assoc, ← hcall.advance.pending]
    exact hread

theorem DiffAt.endsClosed_iff (hstart : start.pending = leading :: behind) (h : DiffAt behind serial t) :
    EndsClosed IxfrTransfer.next (fun t => t.reader) start serial t ↔
      DiffsClosed start.wantQ.name serial behind := by
  refine endsClosed_iff_of (fun _ h => h.next) (fun _ h => h.call.choose_spec.2) (fun t e t' h hnext heof => ?_) h
  obtain ⟨recs, hcall, -⟩ := h.call
  rw [hnext] at hcall
  have hend := hcall.eof e rfl heof
  rw [ClosingRead, hstart, hend, DiffsClosed]
  refine ⟨?_, fun hrec => ⟨leading, behind, by rw [append_nil], hrec⟩⟩
  rintro ⟨leading', read, heq, hrec⟩
  rw [append_nil] at heq
  rwa [(cons_eq_cons.mp heq).2]

end Differences

/-! ### Both iterators -/

theorem next_fallback {t : IxfrTransfer} (h : t.kind = .axfrFallback) : IxfrTransfer.next t =
    ((ZoneTransfer.next t.toZoneTransfer).1.map Event.record,
      { t with toZoneTransfer := (ZoneTransfer.next t.toZoneTransfer).2 }) := by
  have hnext : IxfrTransfer.next t = IxfrTransfer.nextAXFR t := by rw [IxfrTransfer.next, h]
  rw [hnext]
  rcases hnext : ZoneTransfer.next t.toZoneTransfer with ⟨e | rec, z⟩
  · exact Program.bind_of_error (Program.zoom_of_eq hnext)
  · exact Program.bind_of_ok (Program.zoom_of_eq hnext)

theorem ZoneAt.endsClosed_fallback {start : RecReader} {leading : Record} {behind : List Record} {serial : UInt32}
    {t : IxfrTransfer} (hstart : start.pending = leading :: behind)
    (h : ZoneAt leading behind serial t.toZoneTransfer) (hleading : isBracket serial leading = true)
    (hkind : t.kind = .axfrFallback) :
    EndsClosed IxfrTransfer.next (fun t => t.reader) start serial t ↔ ZoneClosed start.wantQ.name serial behind := by
  refine @endsClosed_iff_of _ _ _ _ _ _
    (fun t : IxfrTransfer => t.kind = .axfrFallback ∧ ZoneAt leading behind serial t.toZoneTransfer) _ _ ?_ ?_ ?_ ⟨hkind, h⟩
  · rintro t ⟨hkind, h⟩
    rw [next_fallback hkind]
    exact ⟨hkind, (h.next hleading).1⟩
  · rintro t ⟨hkind, h⟩
    rw [next_fallback hkind]
    refine (h.next hleading).2.imp_left ?_
    rintro ⟨e, he, heof⟩
    refine ⟨e, ?_, heof⟩
    rw [he]
    rfl
  · rintro t e t' ⟨hkind, h⟩ hnext heof
    rw [next_fallback hkind] at hnext
    obtain ⟨herror, rfl⟩ := Prod.mk.inj hnext
    refine h.closingRead_iff_zoneClosed hstart (Prod.ext ?_ rfl) heof
    cases hzone : (ZoneTransfer.next t.toZoneTransfer).1 <;> rw [hzone] at herror <;> cases herror
    rfl

theorem zoneAt_of_init {start : RecReader} {t : ZoneTransfer} (hpush : start.pushback = [])
    (hclosed : start.stream.closed = .eof) (h : ZoneTransfer.init start = .ok t) : ∃ leading,
      start.pending = leading :: start.pending.tail ∧ isBracket t.newSOA.serial leading = true ∧
        ZoneAt leading start.pending.tail t.newSOA.serial t := by
  rw [ZoneTransfer.init] at h
  rcases hread : start.read with ⟨e | rec, rr⟩ <;> rw [hread] at h
  · cases h
  obtain ⟨hadvance, hpush'⟩ := advance_of_read hclosed hread
  have hpending : start.pending = rec :: rr.pending := hadvance.pending
  cases hsoa : rec.asSOA with
  | none => simp only [hsoa] at h; cases h
  | some soa =>
    simp only [hsoa] at h
    cases h
    have hback : Advance start [] (rr.push rec) := Advance.push hadvance (by rw [hpush', hpush]; rfl)
    refine ⟨rec, by rw [hpending]; rfl, by simp [isBracket, hsoa], rfl, hback.closed.trans hclosed, .start rfl rfl ?_⟩
    exact hback.pending.symm.trans (by rw [hpending]; rfl)

theorem at_of_ixfrInit {start : RecReader} {clientSerial : UInt32} {t : IxfrTransfer} (hpush : start.pushback = [])
    (hclosed : start.stream.closed = .eof) (h : IxfrTransfer.init start clientSerial = .ok t)
    (hkind : t.kind ≠ .upToDate) : ∃ leading, start.pending = leading :: start.pending.tail ∧
      isBracket t.newSOA.serial leading = true ∧
        (t.kind = .axfrFallback ∧ ZoneAt leading start.pending.tail t.newSOA.serial t.toZoneTransfer ∨
          DiffAt start.pending.tail t.newSOA.serial t) := by
  rw [IxfrTransfer.init] at h
  rcases hread : start.read with ⟨e | rec1, rr⟩ <;> rw [hread] at h
  · cases h
  obtain ⟨hadvance, hpush'⟩ := advance_of_read hclosed hread
  have hpending : start.pending = rec1 :: rr.pending := hadvance.pending
  have hclosed' := hadvance.closed.trans hclosed
  cases hsoa1 : rec1.asSOA with
  | none => simp only [hsoa1] at h; cases h
  | some soa1 =>
    simp only [hsoa1] at h
    rcases hread' : rr.read with ⟨e | rec2, rr'⟩ <;> simp only [hread'] at h
    · split at h
      · cases h
        exact absurd rfl hkind
      · cases h
    obtain ⟨hadvance', hpush''⟩ := advance_of_read hclosed' hread'
    have hempty : rr'.pushback = [] := by rw [hpush'', hpush', hpush]; rfl
    have hleading : isBracket soa1.serial rec1 = true := by simp [isBracket, hsoa1]
    have htail : start.pending.tail = rec2 :: rr'.pending := by rw [hpending, hadvance'.pending]; rfl
    have hfallback : ZoneAt rec1 start.pending.tail soa1.serial
        ⟨(rr'.push rec1).push rec2, soa1, false, false⟩ := by
      refine ⟨rfl, hadvance'.closed.trans hclosed', .start rfl rfl ?_⟩
      rw [htail]
      simp [RecReader.pending, RecReader.push, hempty]
    cases hsoa2 : rec2.asSOA with
    | none =>
      simp only [hsoa2] at h
      cases h
      exact ⟨rec1, by rw [hpending]; rfl, hleading, .inl ⟨rfl, hfallback⟩⟩
    | some soa2 =>
      simp only [hsoa2] at h
      split at h
      · cases h
        refine ⟨rec1, by rw [hpending]; rfl, hleading, .inr ⟨rfl, rfl, hadvance'.closed.trans hclosed', ?_,
          fun hdone => absurd hdone Bool.false_ne_true, [], ?_⟩⟩
        · simp [RecReader.push, hempty]
        · rw [htail]
          simp [RecReader.pending, RecReader.push, hempty]
      · split at h
        · split at h
          · cases h
            exact absurd rfl hkind
          · cases h
            exact ⟨rec1, by rw [hpending]; rfl, hleading, .inl ⟨rfl, hfallback⟩⟩
        · cases h

/-- **Reporting the end.** An `io.EOF`, from whichever call, means that the closing SOA has been read exactly if the
zone, or the differences, are closed. -/
theorem closingRead_iff (messages : List Message) (verifier : Option Verifier) (wantID : UInt16) (wantQ : Question) :
    (∀ start t, start = newReader .axfr ⟨messages, .eof⟩ verifier wantID wantQ → ZoneTransfer.init start = .ok t →
      (EndsClosed ZoneTransfer.next ZoneTransfer.reader start t.newSOA.serial t ↔
        ZoneClosed wantQ.name t.newSOA.serial start.pending.tail)) ∧
    (∀ start clientSerial t, start = newReader .ixfr ⟨messages, .eof⟩ verifier wantID wantQ →
      IxfrTransfer.init start clientSerial = .ok t → t.kind ≠ .upToDate →
      (EndsClosed IxfrTransfer.next (fun t => t.reader) start t.newSOA.serial t ↔
        if t.kind = .axfrFallback then ZoneClosed wantQ.name t.newSOA.serial start.pending.tail
        else DiffsClosed wantQ.name t.newSOA.serial start.pending.tail)) := by
  constructor
  · rintro start t rfl hinit
    obtain ⟨leading, hstart, hleading, hat⟩ := zoneAt_of_init rfl rfl hinit
    exact hat.endsClosed_iff hstart hleading
  · rintro start clientSerial t rfl hinit hkind
    obtain ⟨leading, hstart, hleading, ⟨hfallback, hat⟩ | hat⟩ := at_of_ixfrInit rfl rfl hinit hkind
    · rw [if_pos hfallback]
      exact hat.endsClosed_fallback hstart hleading hfallback
    · rw [if_neg (by rw [hat.kind]; decide)]
      exact hat.endsClosed_iff hstart

/-- Three envelopes, the second of which is refused. -/
def refusedBetween (front back : List Record) : List Message :=
  [sampleMessage front, { sampleMessage [nsRecord] with id := 8 }, sampleMessage back]

theorem closingRead_iff_refusedBetween :
    (∃ t, ZoneTransfer.init (newReader .axfr ⟨refusedBetween [soaRecord 2, nsRecord] [soaRecord 2], .eof⟩ none 7
      sampleQuestion) = .ok t ∧ EndsClosed ZoneTransfer.next ZoneTransfer.reader
        (newReader .axfr ⟨refusedBetween [soaRecord 2, nsRecord] [soaRecord 2], .eof⟩ none 7 sampleQuestion) 2 t) ∧
    (∃ t, IxfrTransfer.init (newReader .ixfr ⟨refusedBetween [soaRecord 2, soaRecord 1, nsRecord] [soaRecord 2], .eof⟩
      none 7 sampleQuestion) 1 = .ok t ∧ EndsClosed IxfrTransfer.next (fun t => t.reader)
        (newReader .ixfr ⟨refusedBetween [soaRecord 2, soaRecord 1, nsRecord] [soaRecord 2], .eof⟩ none 7 sampleQuestion)
        2 t) := by
  refine ⟨⟨_, rfl, ?_⟩, _, rfl, ?_⟩
  · exact ((closingRead_iff _ none 7 sampleQuestion).1 _ _ rfl rfl).mpr ⟨soaRecord 2, by rfl, rfl⟩
  · refine ((closingRead_iff _ none 7 sampleQuestion).2 _ 1 _ rfl rfl (by decide)).mpr ?_
    exact ⟨soaRecord 2, by decide, by decide⟩

/-! ### Streams that stop early -/

def oneEnvelope (protocol : Protocol) (answers : List Record) : RecReader :=
  newReader protocol ⟨[sampleMessage answers], .eof⟩ none 7 sampleQuestion

theorem not_closingRead {start later : RecReader} {leading : Record} {behind : List Record} {serial : UInt32}
    (hstart : start.pending = leading :: behind) (hlater : later.pending = [])
    (hbehind : ∀ rec ∈ behind, isBracket serial rec = false) : ¬ClosingRead start later serial := by
  grind [ClosingRead, IsClosing]

/-- A stream that stops before the closing SOA is reported as complete: by a zone, among the records removed by a
difference, and by the call behind the error for a missing SOA. -/
theorem closingRead_truncated :
    (∃ t t', ZoneTransfer.init (oneEnvelope .axfr [soaRecord 2, nsRecord]) = .ok t ∧
      ZoneTransfer.next (ZoneTransfer.next.after 2 t) = (.error .eof, t') ∧
      ¬ClosingRead (oneEnvelope .axfr [soaRecord 2, nsRecord]) t'.reader t.newSOA.serial) ∧
    (∃ t t', IxfrTransfer.init (oneEnvelope .ixfr [soaRecord 2, soaRecord 1, nsRecord]) 1 = .ok t ∧
      IxfrTransfer.next t = (.error (.wrap "ixfr: read removed" .eof), t') ∧
      ¬ClosingRead (oneEnvelope .ixfr [soaRecord 2, soaRecord 1, nsRecord]) t'.reader t.newSOA.serial) ∧
    (∃ t t' t'', IxfrTransfer.init (oneEnvelope .ixfr [soaRecord 3, soaRecord 1, soaRecord 2, nsRecord]) 1 = .ok t ∧
      IxfrTransfer.next t = (.error .missingClosingSOA, t') ∧
      IxfrTransfer.next t' = (.error (.wrap "ixfr: read sub-diff start" .eof), t'') ∧
      ¬ClosingRead (oneEnvelope .ixfr [soaRecord 3, soaRecord 1, soaRecord 2, nsRecord]) t''.reader t.newSOA.serial) := by
  refine ⟨⟨_, _, rfl, rfl, ?_⟩, ⟨_, _, rfl, rfl, ?_⟩, _, _, _, rfl, rfl, rfl, ?_⟩
  all_goals exact not_closingRead rfl rfl (by decide)

end Acidns.Transfer
