import Acidns.Transfer.Reader

/-!
# Transfers of whole zones

`axfr/axfr.go`, and the part of `ixfr/ixfr.go` that iterates over a whole zone in the same way. The
zone comes between two SOA records of the same serial: the iterator hands out records, notes the
first SOA of that serial and stops behind the second.
-/

namespace Acidns.Transfer

open Program (Drains)

/-- `transfer` of the package `axfr`, and the fields of `transfer` of the package `ixfr` for the same purpose. -/
structure ZoneTransfer where
  reader : RecReader
  newSOA : SOA
  emittedFirstSOA : Bool
  done : Bool

def isBracket (serial : UInt32) (rec : Record) : Bool := rec.asSOA.any fun soa => soa.serial = serial

theorem isBracket_of_type {serial : UInt32} {rec : Record} (h : rec.type ≠ .soa) : isBracket serial rec = false := by
  cases hsoa : rec.asSOA with
  | none => simp [isBracket, hsoa]
  | some soa => exact absurd (Record.type_of_asSOA hsoa) h

namespace ZoneTransfer

def note (t : ZoneTransfer) (rec : Record) : ZoneTransfer :=
  if isBracket t.newSOA.serial rec then
    if t.emittedFirstSOA then { t with done := true } else { t with emittedFirstSOA := true }
  else t

/-- `Next` of the package `axfr`, `nextAXFR` of the package `ixfr`. -/
def next : Program ZoneTransfer TransferError Record := fun t =>
  if t.done then (.error .eof, t)
  else
    match t.reader.read with
    | (.error e, reader) => (.error e, { t with reader })
    | (.ok rec, reader) => (.ok rec, { t.note rec with reader })

def init (reader : RecReader) : Except TransferError ZoneTransfer :=
  match reader.read with
  | (.error e, _) => .error (if e = .eof then .emptyResponse else e)
  | (.ok rec, reader) =>
    match rec.asSOA with
    | none => .error .missingLeadingSOA
    | some soa => .ok ⟨reader.push rec, soa, false, false⟩

end ZoneTransfer

/-! ### What the iterator hands out -/

/-- The records up to the closing SOA, the second of the serial (the first if one has been seen), and the rest. -/
def splitClosing (serial : UInt32) : (seen : Bool) → List Record → Option (List Record × List Record)
  | _, [] => none
  | seen, rec :: recs =>
    if isBracket serial rec then
      if seen then some ([rec], recs)
      else (splitClosing serial true recs).map fun (front, rest) => (rec :: front, rest)
    else (splitClosing serial seen recs).map fun (front, rest) => (rec :: front, rest)

section Zone

variable {t : ZoneTransfer} {recs front rest : List Record} {rec : Record} {e : TransferError}

/-- Successive calls hand out the front and `io.EOF`, or all records and the error. -/
def Hands (t : ZoneTransfer) (recs : List Record) (e : TransferError) :
    Option (List Record × List Record) → Prop
  | some (front, rest) => ∃ t', Drains ZoneTransfer.next t front .eof t' ∧ t'.reader.outcome = (rest, e)
  | none => ∃ t', Drains ZoneTransfer.next t recs e t' ∧ (e = .eof → t'.reader.outcome = ([], .eof))

theorem Hands.step {t' : ZoneTransfer} {split : Option (List Record × List Record)}
    (hnext : ZoneTransfer.next t = (.ok rec, t')) (h : Hands t' recs e split) :
    Hands t (rec :: recs) e (split.map fun (front, rest) => (rec :: front, rest)) := by
  cases split with
  | none =>
    obtain ⟨t'', hdrains, heof⟩ := h
    exact ⟨t'', .step hnext hdrains, heof⟩
  | some split =>
    obtain ⟨t'', hdrains, hout⟩ := h
    exact ⟨t'', .step hnext hdrains, hout⟩

theorem hands_next (hdone : t.done = false) (hout : t.reader.outcome = (recs, e)) :
    Hands t recs e (splitClosing t.newSOA.serial t.emittedFirstSOA recs) := by
  induction recs generalizing t with
  | nil =>
    obtain ⟨rr, hread, heof⟩ := RecReader.read_nil hout
    refine ⟨{ t with reader := rr }, .stop ?_, heof⟩
    simp [ZoneTransfer.next, hdone, hread]
  | cons rec recs ih =>
    obtain ⟨rr, hread, hout', -⟩ := RecReader.read_cons hout
    have hnext : ZoneTransfer.next t = (.ok rec, { t.note rec with reader := rr }) := by
      simp [ZoneTransfer.next, hdone, hread]
    by_cases hbracket : isBracket t.newSOA.serial rec = true
    · by_cases hseen : t.emittedFirstSOA = true
      · have hnote : t.note rec = { t with done := true } := by simp [ZoneTransfer.note, hbracket, hseen]
        rw [splitClosing, if_pos hbracket, if_pos hseen]
        exact ⟨_, .step hnext (.stop (by simp [ZoneTransfer.next, hnote]; rfl)), hout'⟩
      · simp [ZoneTransfer.note, splitClosing, Hands.step, *]
    · simp [ZoneTransfer.note, splitClosing, Hands.step, *]

theorem exists_drains (hdone : t.done = false) : ∃ recs e t', Drains ZoneTransfer.next t recs e t' := by
  have hhands := hands_next hdone (Prod.eta t.reader.outcome).symm
  cases hsplit : splitClosing t.newSOA.serial t.emittedFirstSOA t.reader.outcome.1 with
  | some split =>
    rw [hsplit] at hhands
    obtain ⟨t', hdrains, -⟩ := hhands
    exact ⟨_, _, t', hdrains⟩
  | none =>
    rw [hsplit] at hhands
    obtain ⟨t', hdrains, -⟩ := hhands
    exact ⟨_, _, t', hdrains⟩

structure ZoneTransfer.Fresh (t : ZoneTransfer) (recs : List Record) (e : TransferError) : Prop where
  outcome : t.reader.outcome = (recs, e)
  emittedFirstSOA : t.emittedFirstSOA = false
  done : t.done = false

variable {reader : RecReader} {soa : SOA}

section

variable (hpush : reader.pushback = []) (hout : reader.outcome = (rec :: recs, e)) (hsoa : rec.asSOA = some soa)

include hpush hout hsoa

theorem init_of_outcome : ∃ t, ZoneTransfer.init reader = .ok t ∧ t.newSOA = soa ∧ t.Fresh (rec :: recs) e := by
  obtain ⟨rr, hread, hout', hpush'⟩ := RecReader.read_cons hout
  refine ⟨⟨rr.push rec, soa, false, false⟩, ?_, rfl, RecReader.outcome_push (by rw [hpush', hpush]; rfl) hout', rfl, rfl⟩
  rw [ZoneTransfer.init, hread]
  dsimp only
  rw [hsoa]

theorem hands_of_outcome : ∃ t, ZoneTransfer.init reader = .ok t ∧ t.newSOA = soa ∧
      Hands t (rec :: recs) e (splitClosing soa.serial false (rec :: recs)) := by
  obtain ⟨t, hinit, hnew, hfresh⟩ := init_of_outcome hpush hout hsoa
  have hhands := hands_next hfresh.done hfresh.outcome
  rw [hfresh.emittedFirstSOA, hnew] at hhands
  exact ⟨t, hinit, hnew, hhands⟩

end

theorem init_eq_ok (hpush : reader.pushback = []) (h : ZoneTransfer.init reader = .ok t) :
    ∃ rec recs e, reader.outcome = (rec :: recs, e) ∧ rec.asSOA = some t.newSOA ∧ t.Fresh (rec :: recs) e := by
  obtain ⟨recs, e, hout⟩ : ∃ recs e, reader.outcome = (recs, e) := ⟨_, _, rfl⟩
  cases recs with
  | nil =>
    obtain ⟨rr, hread, -⟩ := RecReader.read_nil hout
    rw [ZoneTransfer.init, hread] at h
    cases h
  | cons rec recs => grind [RecReader.read_cons, ZoneTransfer.init, init_of_outcome]

end Zone

end Acidns.Transfer
