import Acidns.Transfer.History

/-!
# Differences in sequence

A secondary applies the differences of an incremental transfer one after the other to its own version of the
zone, so the first has to start there, each has to start where the one before ended, and the last has to end
at the newest version. The client does not compare serials: what it reports is in sequence exactly if the
SOA records that the server has sent are.
-/

namespace Acidns.Transfer

open Program (Drains)

/-- The differences lead from the version `serial` to the version `new`, forward in each step. -/
def Continuous (new : UInt32) : (serial : UInt32) → List Event → Prop
  | serial, [] => serial = new
  | serial, .diff fromSerial toSerial _ _ :: events =>
    fromSerial = serial ∧ serialIsOlder fromSerial toSerial = true ∧ Continuous new toSerial events
  | _, .record _ :: _ => False

/-- Pairs of serials, old and new, each from where the one before ended, and `new` behind them. -/
def InSequence (new : UInt32) : (serial : UInt32) → List UInt32 → Prop
  | _, [] => False
  | serial, [closing] => closing = serial ∧ closing = new
  | serial, old :: next :: serials => old = serial ∧ serialIsOlder old next = true ∧ InSequence new next serials

def soaSerials (recs : List Record) : List UInt32 := recs.filterMap fun rec => rec.asSOA.map SOA.serial

section Sequence

variable {recs rest front : List Record} {soa : Record} {e : TransferError} {t t' : IxfrTransfer} {events : List Event}

theorem soaSerials_cons {data : SOA} (h : soa.asSOA = some data) (recs : List Record) :
    soaSerials (soa :: recs) = data.serial :: soaSerials recs := by
  rw [soaSerials, List.filterMap_cons, h]
  rfl

theorem soaSerials_of_splitSOA (h : splitSOA recs = some (front, soa, rest)) :
    soaSerials recs = soaSerials (soa :: rest) := by
  obtain ⟨rfl, -, hfront⟩ := splitSOA_eq_some h
  have hnone : ∀ rec ∈ front, rec.asSOA = none := by
    intro rec hrec
    cases hsoa : rec.asSOA with
    | none => rfl
    | some data => exact absurd (Record.type_of_asSOA hsoa) (hfront rec hrec)
  rw [soaSerials, List.filterMap_append, List.filterMap_eq_nil_iff.mpr fun rec hrec => by rw [hnone rec hrec]; rfl]
  rfl

theorem soaSerials_of_diffStep {serial : UInt32} {ev : Event} (h : diffStep serial recs e = .ok (ev, rest)) :
    ∃ fromSerial toSerial removed added, ev = .diff fromSerial toSerial removed added ∧
      soaSerials recs = fromSerial :: toSerial :: soaSerials rest := by
  rw [diffStep.eq_def] at h
  split at h
  · cases h
  · rename_i soaOld recs
    split at h
    · cases h
    · rename_i old hold
      split at h
      · cases h
      · rw [diffRest] at h
        split at h
        · cases h
        · rename_i removed soaNew recs' hsplit
          split at h
          · cases h
          · rename_i new hnew
            split at h
            · cases h
            · rename_i added closing recs'' hsplit'
              cases h
              refine ⟨old.serial, new.serial, removed, added, rfl, ?_⟩
              rw [soaSerials_cons hold, soaSerials_of_splitSOA hsplit, soaSerials_cons hnew, soaSerials_of_splitSOA hsplit']

theorem eq_singleton_of_diffStep {serial : UInt32} (h : diffStep serial recs e = .error .eof) :
    soaSerials recs = [serial] := by
  rw [diffStep.eq_def] at h
  split at h
  · cases h
  · rename_i soaOld recs
    split at h
    · cases h
    · rename_i old hold
      split at h
      · rename_i hserial
        have hclosing : closingError recs e = .eof := Except.error.inj h
        rw [closingError] at hclosing
        split at hclosing
        · rename_i hnil
          rw [soaSerials_cons hold, hnil, hserial]
          rfl
        · cases hclosing
      · grind [diffRest, IxfrTransfer.addedError]

theorem soaSerials_of_stop (hstop : IxfrTransfer.next t = (.error .eof, t')) (hready : t.Ready recs e) :
    soaSerials recs = [t.newSOA.serial] := by
  have hfollows := follows_next hready
  cases hstep : diffStep t.newSOA.serial recs e with
  | error e' =>
    rw [hstep] at hfollows
    obtain ⟨t'', hnext, -⟩ := hfollows
    cases (Prod.mk.inj (hstop.symm.trans hnext)).1
    exact eq_singleton_of_diffStep hstep
  | ok r =>
    rw [hstep] at hfollows
    obtain ⟨reader, hnext, -⟩ := hfollows
    cases (Prod.mk.inj (hstop.symm.trans hnext)).1

theorem continuous_iff_inSequence {serial : UInt32} (hdrains : Drains IxfrTransfer.next t events .eof t')
    (hready : t.Ready recs e) :
    Continuous t.newSOA.serial serial events ↔ InSequence t.newSOA.serial serial (soaSerials recs) := by
  generalize heof : TransferError.eof = e' at hdrains
  induction hdrains generalizing recs serial with
  | @stop t t' e' hstop =>
    subst heof
    rw [soaSerials_of_stop hstop hready, Continuous, InSequence, eq_comm, and_iff_left rfl]
  | @step t t₁ t' ev events e' hnext hrest ih =>
    have hfollows := follows_next hready
    cases hstep : diffStep t.newSOA.serial recs e with
    | error e'' =>
      rw [hstep] at hfollows
      obtain ⟨t'', hnext', -⟩ := hfollows
      cases (Prod.mk.inj (hnext.symm.trans hnext')).1
    | ok r => grind [Ready.next_of_ok, soaSerials_of_diffStep, Continuous, InSequence]

end Sequence

/-- **Differences in sequence.** A transfer of differences that comes to its end reports them in sequence from the
client's version exactly if the SOAs behind the leading one are so. -/
theorem ixfr_continuous_iff {stream : MessageStream} {verifier : Option Verifier} {wantID : UInt16} {wantQ : Question}
    {clientSerial : UInt32} {t t' : IxfrTransfer} {events : List Event}
    (hinit : IxfrTransfer.init (newReader .ixfr stream verifier wantID wantQ) clientSerial = .ok t)
    (hkind : t.kind = .incremental) (hdrains : Drains IxfrTransfer.next t events .eof t') :
    events ≠ [] ∧ (Continuous t.newSOA.serial clientSerial events ↔
      InSequence t.newSOA.serial clientSerial
        (soaSerials (newReader .ixfr stream verifier wantID wantQ).outcome.1.tail)) := by
  obtain ⟨rec1, rec2, recs, e, hout, -, hcase⟩ := ixfrInit_eq_ok rfl hinit (by rw [hkind]; decide)
  rcases hcase with ⟨hfallback, -⟩ | ⟨hready, soa2, hsoa2, holder⟩
  · exact absurd (hkind.symm.trans hfallback) (by decide)
  · rw [hout]
    refine ⟨?_, continuous_iff_inSequence hdrains hready⟩
    rintro rfl
    -- the first SOA is older than the newest, so the transfer does not end there
    obtain ⟨hstop⟩ := hdrains
    have hserials := soaSerials_of_stop hstop hready
    rw [soaSerials_cons hsoa2] at hserials
    have hserial : soa2.serial = t.newSOA.serial := (List.cons.inj hserials).1
    simp [serialIsOlder, hserial] at holder

def forwardStream : MessageStream :=
  ⟨[sampleMessage [soaRecord 2, soaRecord 1], sampleMessage [soaRecord 2, nsRecord, soaRecord 2]], .eof⟩

theorem ixfr_continuous_sample :
    ∃ t t', IxfrTransfer.init (newReader .ixfr forwardStream none 7 sampleQuestion) 1 = .ok t ∧
      Drains IxfrTransfer.next t [.diff 1 2 [] [nsRecord]] .eof t' ∧
      Continuous t.newSOA.serial 1 [.diff 1 2 [] [nsRecord]] := by
  have hinit : ∃ t t', IxfrTransfer.init (newReader .ixfr forwardStream none 7 sampleQuestion) 1 = .ok t ∧
      t.kind = .incremental ∧ t.newSOA.serial = 2 ∧ Drains IxfrTransfer.next t [.diff 1 2 [] [nsRecord]] .eof t' :=
    ⟨_, _, rfl, rfl, rfl, .step rfl (.stop rfl)⟩
  obtain ⟨t, t', hinit, hkind, hserial, hdrains⟩ := hinit
  refine ⟨t, t', hinit, hdrains, (ixfr_continuous_iff hinit hkind hdrains).2.mpr ?_⟩
  have houtcome : soaSerials (newReader .ixfr forwardStream none 7 sampleQuestion).outcome.1.tail = [1, 2, 2] := by
    decide +kernel
  rw [houtcome, hserial]
  exact ⟨rfl, by decide, rfl, rfl⟩

def foreignStream : MessageStream := ⟨[sampleMessage [soaRecord 9, soaRecord 4, soaRecord 3, soaRecord 9]], .eof⟩

/-- A difference from a foreign version that does not reach the newest is reported, and then the end. -/
theorem ixfr_reports_foreign :
    ∃ t t', IxfrTransfer.init (newReader .ixfr foreignStream none 7 sampleQuestion) 1 = .ok t ∧ t.kind = .incremental ∧
      Drains IxfrTransfer.next t [.diff 4 3 [] []] .eof t' ∧ ¬Continuous t.newSOA.serial 1 [.diff 4 3 [] []] :=
  ⟨_, _, rfl, rfl, .step rfl (.stop rfl), fun h => absurd h.1 (by decide)⟩

end Acidns.Transfer
