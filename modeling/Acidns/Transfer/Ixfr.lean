import Acidns.Transfer.Axfr

/-!
# Incremental transfers

`ixfr/ixfr.go`. The first two records tell what the server has sent: nothing new, the whole zone, or
a sequence of differences. Each difference is an SOA of the old version, the records removed, an SOA
of the new version and the records added; an SOA of the newest version closes the sequence.

`diffStep` is what one call of `Next` amounts to on the list of records that are still to come;
`nextIncremental` is shown to do just that on top of a reader.
-/

namespace Acidns.Transfer

open Program (Drains)

inductive Kind where
  | upToDate
  | axfrFallback
  | incremental
  deriving DecidableEq

/-- What `Next` returns. -/
inductive Event where
  | record (rec : Record)
  | diff (fromSerial toSerial : UInt32) (removed added : List Record)
  deriving DecidableEq

def serialIsOlder (a b : UInt32) : Bool := a ≠ b && b - a < (0x80000000 : UInt32)

structure IxfrTransfer extends ZoneTransfer where
  kind : Kind
  incDone : Bool

namespace IxfrTransfer

def init (reader : RecReader) (clientSerial : UInt32) : Except TransferError IxfrTransfer :=
  match reader.read with
  | (.error e, _) => .error (if e = .eof then .emptyResponse else e)
  | (.ok rec1, reader) =>
    match rec1.asSOA with
    | none => .error .missingLeadingSOA
    | some soa1 =>
      let start (kind : Kind) (reader : RecReader) : IxfrTransfer :=
        { reader, newSOA := soa1, emittedFirstSOA := false, done := false, kind, incDone := false }
      match reader.read with
      | (.error e, reader) => if e = .eof then .ok (start .upToDate reader) else .error e
      | (.ok rec2, reader) =>
        match rec2.asSOA with
        | none => .ok (start .axfrFallback ((reader.push rec1).push rec2))
        | some soa2 =>
          if serialIsOlder soa2.serial soa1.serial then .ok (start .incremental (reader.push rec2))
          else if soa2.serial = soa1.serial then
            if soa1.serial = clientSerial then .ok (start .upToDate reader)
            else .ok (start .axfrFallback ((reader.push rec1).push rec2))
          else .error .invalidSOAPair

/-- The records up to the next of type SOA, and that one. The fuel is never used up. -/
def untilSOA : (fuel : Nat) → Program RecReader TransferError (List Record × Record)
  | 0 => Program.fail .unexpectedRecord
  | fuel + 1 => do
    let rec ← RecReader.read
    if rec.type = .soa then pure ([], rec)
    else do
      let (recs, soa) ← untilSOA fuel
      pure (rec :: recs, soa)

def onReader {α : Type} (p : Program RecReader TransferError α) : Program IxfrTransfer TransferError α :=
  p.zoom (fun t => t.reader) fun reader t => { t with reader }

def close : Program IxfrTransfer TransferError Event := do
  let r ← onReader (Program.attempt RecReader.read)
  match r with
  | .ok _ => Program.fail .unexpectedRecord
  | .error e =>
    if e.isEOF then do
      Program.modify fun t => { t with incDone := true }
      Program.fail .eof
    else Program.fail (.wrap "ixfr: read past closing SOA" e)

def addedError (e : TransferError) : TransferError :=
  if e = .eof then .missingClosingSOA else .wrap "ixfr: read added" e

/-- The rest of a difference, behind the SOA of the old version, with fuel for the loops. -/
def subDiff (fuel : Nat) (fromSerial : UInt32) : Program IxfrTransfer TransferError Event := do
  let (removed, soaNew) ← onReader ((untilSOA fuel).mapError (.wrap "ixfr: read removed"))
  match soaNew.asSOA with
  | none => Program.fail (.missingSubDiffSOA "end")
  | some new => do
    let (added, rec) ← onReader ((untilSOA fuel).mapError addedError)
    Program.modify fun t => { t with reader := t.reader.push rec }
    pure (.diff fromSerial new.serial removed added)

/-- One difference sequence: the deletions, then the additions. -/
def nextIncremental : Program IxfrTransfer TransferError Event := fun t =>
  if t.incDone then (.error .eof, t)
  else (do
    let soaOld ← onReader (RecReader.read.mapError (.wrap "ixfr: read sub-diff start"))
    match soaOld.asSOA with
    | none => Program.fail (.missingSubDiffSOA "start")
    | some old =>
      if old.serial = t.newSOA.serial then close else subDiff (t.reader.remaining + 1) old.serial) t

/-- A whole zone sent in answer to IXFR. -/
def nextAXFR : Program IxfrTransfer TransferError Event := do
  let rec ← Program.zoom toZoneTransfer (fun z t => { t with toZoneTransfer := z }) ZoneTransfer.next
  pure (.record rec)

def next : Program IxfrTransfer TransferError Event := fun t =>
  match t.kind with
  | .upToDate => (.error .eof, t)
  | .axfrFallback => nextAXFR t
  | .incremental => nextIncremental t

end IxfrTransfer

/-! ### One call on the list of records -/

/-- The records in front of the first of type SOA, that one, and the records behind it. -/
def splitSOA : List Record → Option (List Record × Record × List Record)
  | [] => none
  | rec :: recs =>
    if rec.type = .soa then some ([], rec, recs)
    else (splitSOA recs).map fun (front, soa, rest) => (rec :: front, soa, rest)

def closingError (recs : List Record) (e : TransferError) : TransferError :=
  if recs = [] then if e.isEOF then .eof else .wrap "ixfr: read past closing SOA" e else .unexpectedRecord

def diffRest (fromSerial : UInt32) (recs : List Record) (e : TransferError) :
    Except TransferError (Event × List Record) :=
  match splitSOA recs with
  | none => .error (.wrap "ixfr: read removed" e)
  | some (removed, soaNew, recs) =>
    match soaNew.asSOA with
    | none => .error (.missingSubDiffSOA "end")
    | some new =>
      match splitSOA recs with
      | none => .error (IxfrTransfer.addedError e)
      | some (added, soa, recs) => .ok (.diff fromSerial new.serial removed added, soa :: recs)

/-- The next difference with the records behind it, or the error, if the stream fails with `e`. -/
def diffStep (serial : UInt32) (recs : List Record) (e : TransferError) : Except TransferError (Event × List Record) :=
  match recs with
  | [] => .error (.wrap "ixfr: read sub-diff start" e)
  | soaOld :: recs =>
    match soaOld.asSOA with
    | none => .error (.missingSubDiffSOA "start")
    | some old => if old.serial = serial then .error (closingError recs e) else diffRest old.serial recs e

section Incremental

variable {rr : RecReader} {recs : List Record} {e : TransferError} {t : IxfrTransfer}

theorem untilSOA_spec {fuel : Nat} (hout : rr.outcome = (recs, e)) (hpush : rr.pushback = [])
    (hfuel : recs.length < fuel) :
    match splitSOA recs with
    | some (front, soa, rest) => ∃ rr', IxfrTransfer.untilSOA fuel rr = (.ok (front, soa), rr') ∧
        rr'.outcome = (rest, e) ∧ rr'.pushback = []
    | none => ∃ rr', IxfrTransfer.untilSOA fuel rr = (.error e, rr') ∧ (e = .eof → rr'.outcome = ([], .eof)) := by
  induction recs generalizing rr fuel with
  | nil =>
    obtain ⟨fuel, rfl⟩ := Nat.exists_eq_succ_of_ne_zero (Nat.ne_zero_of_lt hfuel)
    obtain ⟨rr', hread, heof⟩ := RecReader.read_nil hout
    exact ⟨rr', Program.bind_of_error hread, heof⟩
  | cons rec recs ih =>
    obtain ⟨fuel, rfl⟩ := Nat.exists_eq_succ_of_ne_zero (Nat.ne_zero_of_lt hfuel)
    obtain ⟨rr', hread, hout', hpush'⟩ := RecReader.read_cons hout
    rw [hpush] at hpush'
    rw [IxfrTransfer.untilSOA, splitSOA, Program.bind_of_ok hread]
    by_cases hsoa : rec.type = .soa
    · rw [if_pos hsoa, if_pos hsoa]
      exact ⟨rr', rfl, hout', hpush'⟩
    · rw [if_neg hsoa, if_neg hsoa]
      have hrest := @ih rr' fuel hout' hpush' (by simpa using hfuel)
      cases hsplit : splitSOA recs with
      | none => grind [Program.bind_of_error]
      | some split =>
        rw [hsplit] at hrest
        obtain ⟨rr'', huntil, hout'', hpush''⟩ := hrest
        exact ⟨rr'', by rw [Program.bind_of_ok huntil]; rfl, hout'', hpush''⟩

theorem splitSOA_eq_some {front rest : List Record} {soa : Record} (h : splitSOA recs = some (front, soa, rest)) :
    recs = front ++ soa :: rest ∧ soa.type = .soa ∧ ∀ rec ∈ front, rec.type ≠ .soa := by
  induction recs generalizing front with
  | nil => cases h
  | cons rec recs ih =>
    rw [splitSOA] at h
    split at h
    · next hsoa =>
      cases h
      exact ⟨rfl, hsoa, List.forall_mem_nil _⟩
    · next hne =>
      obtain ⟨⟨front', soa', rest'⟩, hsplit, hmap⟩ := Option.map_eq_some_iff.mp h
      cases hmap
      obtain ⟨rfl, hsoa, hfront⟩ := ih hsplit
      exact ⟨rfl, hsoa, List.forall_mem_cons.mpr ⟨hne, hfront⟩⟩

theorem onReader_of_eq {α : Type} {p : Program RecReader TransferError α} {r : Except TransferError α}
    (h : p t.reader = (r, rr)) : IxfrTransfer.onReader p t = (r, { t with reader := rr }) :=
  Program.zoom_of_eq h

structure IxfrTransfer.Ready (t : IxfrTransfer) (recs : List Record) (e : TransferError) : Prop where
  kind : t.kind = .incremental
  incDone : t.incDone = false
  outcome : t.reader.outcome = (recs, e)
  pushback : t.reader.pushback.length ≤ 1

theorem close_spec (hout : t.reader.outcome = (recs, e)) :
    ∃ t', IxfrTransfer.close t = (.error (closingError recs e), t') ∧
      (e = .eof → recs = [] → t'.reader.outcome = ([], .eof)) := by
  cases recs with
  | nil =>
    obtain ⟨rr, hread, heof⟩ := RecReader.read_nil hout
    have hattempt : Program.attempt RecReader.read t.reader = (.ok (.error e), rr) := by
      simp [Program.attempt, hread]
    rw [IxfrTransfer.close, Program.bind_of_ok (onReader_of_eq hattempt), closingError, if_pos rfl]
    by_cases he : e.isEOF = true
    · simp only [he, if_true]
      exact ⟨{ t with reader := rr, incDone := true }, rfl, fun he _ => heof he⟩
    · simp only [he]
      exact ⟨{ t with reader := rr }, rfl, fun he _ => heof he⟩
  | cons rec recs =>
    obtain ⟨rr, hread, -⟩ := RecReader.read_cons hout
    have hattempt : Program.attempt RecReader.read t.reader = (.ok (.ok rec), rr) := by
      simp [Program.attempt, hread]
    rw [IxfrTransfer.close, Program.bind_of_ok (onReader_of_eq hattempt), closingError, if_neg (List.cons_ne_nil rec recs)]
    exact ⟨{ t with reader := rr }, rfl, fun _ h => absurd h (List.cons_ne_nil rec recs)⟩

/-- The program does on the transfer what `step` says about the records to come. -/
def Follows (p : Program IxfrTransfer TransferError Event) (t : IxfrTransfer) (e : TransferError)
    (step : Except TransferError (Event × List Record)) : Prop :=
  match step with
  | .ok (ev, rest) => ∃ reader, p t = (.ok ev, { t with reader }) ∧ reader.outcome = (rest, e) ∧
      reader.pushback.length ≤ 1
  | .error e' => ∃ t', p t = (.error e', t') ∧ (e'.isEOF → e = .eof → t'.reader.outcome = ([], .eof))

theorem Follows.of_eq {p q : Program IxfrTransfer TransferError Event} {step : Except TransferError (Event × List Record)}
    (hpq : p t = q { t with reader := rr }) (h : Follows q { t with reader := rr } e step) : Follows p t e step := by
  rcases step with e' | ⟨ev, rest⟩
  · obtain ⟨t', hq, heof⟩ := h
    exact ⟨t', hpq.trans hq, heof⟩
  · obtain ⟨reader, hq, hout⟩ := h
    exact ⟨reader, hpq.trans hq, hout⟩

/-- One difference sequence, as a function of the records still to come. -/
theorem follows_subDiff {fuel : Nat} (fromSerial : UInt32) (hout : t.reader.outcome = (recs, e))
    (hpush : t.reader.pushback = []) (hfuel : recs.length < fuel) :
    Follows (IxfrTransfer.subDiff fuel fromSerial) t e (diffRest fromSerial recs e) := by
  have hremoved := untilSOA_spec hout hpush hfuel
  rw [diffRest]
  cases hsplit : splitSOA recs with
  | none =>
    rw [hsplit] at hremoved
    obtain ⟨rr, huntil, heof⟩ := hremoved
    exact ⟨{ t with reader := rr }, Program.bind_of_error (onReader_of_eq (Program.mapError_of_error huntil)),
      fun _ he => heof he⟩
  | some split =>
    obtain ⟨removed, soaNew, recs'⟩ := split
    rw [hsplit] at hremoved
    obtain ⟨rr, huntil, hout', hpush'⟩ := hremoved
    have hfirst : IxfrTransfer.subDiff fuel fromSerial t = _ :=
      Program.bind_of_ok (onReader_of_eq (Program.mapError_of_ok huntil))
    dsimp only at hfirst ⊢
    cases hnew : soaNew.asSOA with
    | none =>
      rw [hnew] at hfirst
      exact ⟨{ t with reader := rr }, hfirst, nofun⟩
    | some new =>
      rw [hnew] at hfirst
      have hlength : recs'.length < recs.length := by
        rw [(splitSOA_eq_some hsplit).1, List.length_append, List.length_cons]
        omega
      have hadded := @untilSOA_spec rr recs' e fuel hout' hpush' (hlength.trans hfuel)
      dsimp only at hfirst ⊢
      cases hsplit' : splitSOA recs' with
      | none =>
        rw [hsplit'] at hadded
        obtain ⟨rr', huntil', heof⟩ := hadded
        refine ⟨{ t with reader := rr' }, hfirst.trans ?_, fun _ he => heof he⟩
        exact Program.bind_of_error (onReader_of_eq (Program.mapError_of_error huntil'))
      | some split =>
        obtain ⟨added, soa, rest⟩ := split
        rw [hsplit'] at hadded
        obtain ⟨rr', huntil', hout'', hpush''⟩ := hadded
        refine ⟨rr'.push soa, hfirst.trans ?_, RecReader.outcome_push hpush'' hout'', ?_⟩
        · rw [Program.bind_of_ok (onReader_of_eq (Program.mapError_of_ok huntil'))]
          rfl
        · simp [RecReader.push, hpush'']

/-- **One call of the iterator over differences** does what `diffStep` says about the records to come. -/
theorem follows_next (h : t.Ready recs e) : Follows IxfrTransfer.next t e (diffStep t.newSOA.serial recs e) := by
  have hnext : IxfrTransfer.next t = IxfrTransfer.nextIncremental t := by rw [IxfrTransfer.next, h.kind]
  rw [IxfrTransfer.nextIncremental, if_neg (by simp [h.incDone])] at hnext
  rw [diffStep.eq_def]
  cases recs with
  | nil =>
    obtain ⟨rr, hread, heof⟩ := RecReader.read_nil h.outcome
    refine ⟨{ t with reader := rr }, hnext.trans ?_, fun _ he => heof he⟩
    exact Program.bind_of_error (onReader_of_eq (Program.mapError_of_error hread))
  | cons soaOld recs =>
    obtain ⟨rr, hread, hout, hpush⟩ := RecReader.read_cons h.outcome
    have hempty : rr.pushback = [] := by
      rw [hpush]
      exact List.length_eq_zero_iff.mp (by have hle := h.pushback; rw [List.length_tail]; omega)
    rw [Program.bind_of_ok (onReader_of_eq (Program.mapError_of_ok hread))] at hnext
    dsimp only at hnext ⊢
    cases hold : soaOld.asSOA with
    | none =>
      rw [hold] at hnext
      exact ⟨{ t with reader := rr }, hnext, nofun⟩
    | some old =>
      rw [hold] at hnext
      dsimp only at hnext ⊢
      by_cases hclosing : old.serial = t.newSOA.serial
      · rw [if_pos hclosing] at hnext ⊢
        obtain ⟨t', hclose, heof⟩ := @close_spec recs e { t with reader := rr } hout
        refine ⟨t', hnext.trans hclose, fun hiseof he => heof he ?_⟩
        by_contra hne
        rw [closingError, if_neg hne] at hiseof
        cases hiseof
      · rw [if_neg hclosing] at hnext ⊢
        have hfuel : recs.length < t.reader.remaining + 1 := by
          have hle := t.reader.length_outcome_le
          rw [h.outcome, List.length_cons] at hle
          omega
        exact Follows.of_eq hnext (follows_subDiff old.serial hout hempty hfuel)

theorem Ready.next_of_ok {ev : Event} {rest : List Record} (h : t.Ready recs e)
    (hstep : diffStep t.newSOA.serial recs e = .ok (ev, rest)) :
    ∃ t', IxfrTransfer.next t = (.ok ev, t') ∧ t'.Ready rest e ∧ t'.newSOA = t.newSOA := by
  have hfollows := follows_next h
  rw [hstep] at hfollows
  obtain ⟨reader, hnext, hout, hpush⟩ := hfollows
  exact ⟨{ t with reader }, hnext, ⟨h.kind, h.incDone, hout, hpush⟩, rfl⟩

theorem Ready.next_of_error {e' : TransferError} (h : t.Ready recs e)
    (hstep : diffStep t.newSOA.serial recs e = .error e') :
    ∃ t', IxfrTransfer.next t = (.error e', t') ∧ (e'.isEOF → e = .eof → t'.reader.outcome = ([], .eof)) := by
  have hfollows := follows_next h
  rw [hstep] at hfollows
  exact hfollows

end Incremental

/-! ### Whole zones -/

theorem drains_fallback {z z' : ZoneTransfer} {recs : List Record} {e : TransferError} {t : IxfrTransfer}
    (h : Drains ZoneTransfer.next z recs e z') (hz : t.toZoneTransfer = z) (hkind : t.kind = .axfrFallback) :
    Drains IxfrTransfer.next t (recs.map Event.record) e { t with toZoneTransfer := z' } := by
  have hnext : ∀ {t : IxfrTransfer}, t.kind = .axfrFallback → IxfrTransfer.next t = IxfrTransfer.nextAXFR t :=
    fun hkind => by rw [IxfrTransfer.next, hkind]
  induction h generalizing t with
  | stop hstop =>
    subst hz
    refine .stop ((hnext hkind).trans ?_)
    exact Program.bind_of_error (Program.zoom_of_eq hstop)
  | @step z z₁ z' rec recs e hstep _ ih =>
    subst hz
    have hfirst : IxfrTransfer.next t = (.ok (.record rec), { t with toZoneTransfer := z₁ }) :=
      (hnext hkind).trans (Program.bind_of_ok (Program.zoom_of_eq hstep))
    exact .step hfirst (@ih { t with toZoneTransfer := z₁ } rfl hkind)

/-! ### The start of a transfer -/

section Init

variable {reader : RecReader} {rec1 rec2 : Record} {recs : List Record} {e : TransferError} {soa1 : SOA}
  {clientSerial : UInt32} {t : IxfrTransfer}

theorem fallback_of_outcome (hpush : reader.pushback = []) (hout : reader.outcome = (rec1 :: rec2 :: recs, e))
    (hsoa1 : rec1.asSOA = some soa1)
    (hsoa2 : ∀ soa2, rec2.asSOA = some soa2 → soa2.serial = soa1.serial ∧ soa1.serial ≠ clientSerial) :
    ∃ t, IxfrTransfer.init reader clientSerial = .ok t ∧ t.kind = .axfrFallback ∧ t.newSOA = soa1 ∧
      t.Fresh (rec1 :: rec2 :: recs) e := by
  obtain ⟨rr, hread, hout', hpush'⟩ := RecReader.read_cons hout
  obtain ⟨rr', hread', hout'', hpush''⟩ := RecReader.read_cons hout'
  have hempty : rr'.pushback = [] := by rw [hpush'', hpush', hpush]; rfl
  refine ⟨⟨⟨(rr'.push rec1).push rec2, soa1, false, false⟩, .axfrFallback, false⟩, ?_, rfl, rfl,
    RecReader.outcome_push_push hempty hout'', rfl, rfl⟩
  cases hsoa : rec2.asSOA with
  | none => simp [IxfrTransfer.init, hread, hsoa1, hread', hsoa]
  | some soa2 => simp [IxfrTransfer.init, serialIsOlder, *]

theorem incremental_of_outcome {soa2 : SOA} (hpush : reader.pushback = [])
    (hout : reader.outcome = (rec1 :: rec2 :: recs, e)) (hsoa1 : rec1.asSOA = some soa1)
    (hsoa2 : rec2.asSOA = some soa2) (holder : serialIsOlder soa2.serial soa1.serial = true) :
    ∃ t, IxfrTransfer.init reader clientSerial = .ok t ∧ t.newSOA = soa1 ∧ t.Ready (rec2 :: recs) e := by
  obtain ⟨rr, hread, hout', hpush'⟩ := RecReader.read_cons hout
  obtain ⟨rr', hread', hout'', hpush''⟩ := RecReader.read_cons hout'
  have hempty : rr'.pushback = [] := by rw [hpush'', hpush', hpush]; rfl
  refine ⟨⟨⟨rr'.push rec2, soa1, false, false⟩, .incremental, false⟩, ?_, rfl, rfl, rfl,
    RecReader.outcome_push hempty hout'', by simp [RecReader.push, hempty]⟩
  simp [IxfrTransfer.init, hread, hsoa1, hread', hsoa2, holder]

theorem ixfrInit_eq_ok (hpush : reader.pushback = []) (h : IxfrTransfer.init reader clientSerial = .ok t)
    (hkind : t.kind ≠ .upToDate) : ∃ rec1 rec2 recs e, reader.outcome = (rec1 :: rec2 :: recs, e) ∧
      rec1.asSOA = some t.newSOA ∧ ((t.kind = .axfrFallback ∧ t.Fresh (rec1 :: rec2 :: recs) e) ∨
        (t.Ready (rec2 :: recs) e ∧ ∃ soa2, rec2.asSOA = some soa2 ∧
          serialIsOlder soa2.serial t.newSOA.serial = true)) := by
  obtain ⟨recs, e, hout⟩ : ∃ recs e, reader.outcome = (recs, e) := ⟨_, _, rfl⟩
  cases recs with
  | nil =>
    obtain ⟨rr, hread, -⟩ := RecReader.read_nil hout
    simp [IxfrTransfer.init, hread] at h
  | cons rec1 recs =>
    obtain ⟨rr, hread, hout', hpush'⟩ := RecReader.read_cons hout
    cases hsoa1 : rec1.asSOA with
    | none => simp [IxfrTransfer.init, hread, hsoa1] at h
    | some soa1 =>
      cases recs with
      | nil => grind [RecReader.read_nil, IxfrTransfer.init]
      | cons rec2 recs =>
        have hfallback : (∀ soa2, rec2.asSOA = some soa2 → soa2.serial = soa1.serial ∧
            soa1.serial ≠ clientSerial) → t.kind = .axfrFallback ∧ t.newSOA = soa1 ∧
              t.Fresh (rec1 :: rec2 :: recs) e := fun hsoa2 => by
          obtain ⟨t', ht', hfresh⟩ := fallback_of_outcome hpush hout hsoa1 hsoa2
          cases ht'.symm.trans h
          exact hfresh
        cases hsoa2 : rec2.asSOA with
        | none => simp [*]
        | some soa2 =>
          by_cases holder : serialIsOlder soa2.serial soa1.serial = true
          · obtain ⟨t', ht', hnew, hready⟩ := incremental_of_outcome hpush hout hsoa1 hsoa2 holder
            cases ht'.symm.trans h
            exact ⟨rec1, rec2, recs, e, hout, hnew ▸ hsoa1, .inr ⟨hready, soa2, hsoa2, hnew ▸ holder⟩⟩
          · grind [RecReader.read_cons, IxfrTransfer.init]

end Init

end Acidns.Transfer
