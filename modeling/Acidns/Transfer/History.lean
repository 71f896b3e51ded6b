import Acidns.Transfer.Ixfr

/-!
# Receiving the history of a zone

A history is a version of a zone and the steps that led to the versions after it. A server answers
an incremental transfer with the newest SOA, the differences in order and the newest SOA again; in
whatever way it splits that response into messages, the client reports the steps of the history.
-/

namespace Acidns.Transfer

open Program (Drains)

/-- A version of the zone, by its SOA. -/
structure Version where
  soa : Record
  data : SOA
  asSOA : soa.asSOA = some data

/-- From one version to the next. -/
structure HistoryStep where
  removed : List Record
  added : List Record
  version : Version
  removed_ne : ∀ rec ∈ removed, rec.type ≠ .soa
  added_ne : ∀ rec ∈ added, rec.type ≠ .soa

def Version.serial (v : Version) : UInt32 := v.data.serial

/-- The version that a history ends in. -/
def newest : Version → List HistoryStep → Version
  | v, [] => v
  | _, step :: steps => newest step.version steps

def differences : Version → List HistoryStep → List Record
  | _, [] => []
  | v, step :: steps =>
    v.soa :: (step.removed ++ step.version.soa :: (step.added ++ differences step.version steps))

/-- What a server sends for the history (RFC 1995). -/
def response (v : Version) (steps : List HistoryStep) : List Record :=
  (newest v steps).soa :: (differences v steps ++ [(newest v steps).soa])

/-- What the client hands out for it. -/
def reports : Version → List HistoryStep → List Event
  | _, [] => []
  | v, step :: steps =>
    .diff v.serial step.version.serial step.removed step.added :: reports step.version steps

section Response

variable {v : Version} {step : HistoryStep} {steps : List HistoryStep} {recs : List Record}

theorem Version.type_soa (v : Version) : v.soa.type = .soa := Record.type_of_asSOA v.asSOA

theorem splitSOA_append {soa : Record} (hrecs : ∀ rec ∈ recs, rec.type ≠ .soa) (hsoa : soa.type = .soa)
    (rest : List Record) : splitSOA (recs ++ soa :: rest) = some (recs, soa, rest) := by
  induction recs with
  | nil => simp [splitSOA, hsoa]
  | cons rec recs ih =>
    obtain ⟨hrec, hrecs⟩ := List.forall_mem_cons.mp hrecs
    simp [splitSOA, hrec, ih hrecs]

theorem differences_eq_cons (v : Version) (steps : List HistoryStep) :
    ∃ rest, differences v steps ++ [(newest v steps).soa] = v.soa :: rest := by
  cases steps with
  | nil => exact ⟨[], rfl⟩
  | cons step steps => exact ⟨_, rfl⟩

theorem diffStep_differences {serial : UInt32} {e : TransferError} (hserial : v.serial ≠ serial) :
    diffStep serial (differences v (step :: steps) ++ [(newest v (step :: steps)).soa]) e =
      .ok (.diff v.serial step.version.serial step.removed step.added,
        differences step.version steps ++ [(newest step.version steps).soa]) := by
  obtain ⟨rest, hrest⟩ := differences_eq_cons step.version steps
  have hsplit := splitSOA_append step.removed_ne step.version.type_soa
    (step.added ++ step.version.soa :: rest)
  have hsplit' := splitSOA_append step.added_ne step.version.type_soa rest
  have hne : ¬v.data.serial = serial := hserial
  simp only [differences, newest, List.cons_append, List.append_assoc, diffStep, v.asSOA, if_neg hne, diffRest,
    hsplit, step.version.asSOA, hrest, hsplit']
  rfl

theorem serial_newest_mem (v : Version) (steps : List HistoryStep) :
    (newest v steps).serial ∈ v.serial :: steps.map fun step => step.version.serial := by
  induction steps generalizing v with
  | nil => exact List.mem_singleton_self _
  | cons step steps ih => exact .tail _ (ih step.version)

/-- **Differences received.** From the first SOA of the differences on, the client reports the steps. -/
theorem drains_differences {t : IxfrTransfer} (hready : t.Ready (differences v steps ++ [(newest v steps).soa]) .eof)
    (hnew : t.newSOA.serial = (newest v steps).serial)
    (hdistinct : (v.serial :: steps.map fun step => step.version.serial).Nodup) :
    ∃ t', Drains IxfrTransfer.next t (reports v steps) .eof t' := by
  induction steps generalizing v t with
  | nil =>
    have hstep : diffStep t.newSOA.serial [v.soa] .eof = .error .eof := by
      have hserial : v.data.serial = t.newSOA.serial := hnew.symm
      simp [diffStep, v.asSOA, hserial, closingError, TransferError.isEOF]
    obtain ⟨t', hnext, -⟩ := Ready.next_of_error hready hstep
    exact ⟨t', .stop hnext⟩
  | cons step steps ih =>
    have hne : v.serial ≠ t.newSOA.serial := by
      intro heq
      rw [hnew] at heq
      exact (List.nodup_cons.mp hdistinct).1 (heq ▸ serial_newest_mem step.version steps)
    obtain ⟨t', hnext, hready', hsame⟩ := Ready.next_of_ok hready (diffStep_differences hne)
    obtain ⟨t'', hdrains⟩ := ih hready' (hsame ▸ hnew) hdistinct.of_cons
    exact ⟨t'', .step hnext hdrains⟩

end Response

/-! ### Messages of the response -/

/-- **Incremental transfers.** However the response is split, the client reports the steps of the history in order, and
then the end. -/
theorem ixfr_history (v : Version) (steps : List HistoryStep)
    (hdistinct : (v.serial :: steps.map fun step => step.version.serial).Nodup)
    (holder : serialIsOlder v.serial (newest v steps).serial = true) (wantID : UInt16) (wantQ : Question)
    (messages : List Message) (hsplit : messages.flatMap (fun m => m.answers) = response v steps)
    (hcheck : ∀ m ∈ messages, checkEnvelope wantID wantQ m = .ok ()) (clientSerial : UInt32) :
    ∃ t, IxfrTransfer.init (newReader .ixfr ⟨messages, .eof⟩ none wantID wantQ) clientSerial = .ok t ∧
      t.kind = .incremental ∧ ∃ t', Drains IxfrTransfer.next t (reports v steps) .eof t' := by
  have hout : (newReader .ixfr ⟨messages, .eof⟩ none wantID wantQ).outcome = (response v steps, .eof) := by
    rw [outcome_newReader, accepted_of_check hcheck, hsplit]
  obtain ⟨rest, hrest⟩ := differences_eq_cons v steps
  rw [response, hrest] at hout
  obtain ⟨t, hinit, hnew, hready⟩ := @incremental_of_outcome _ _ _ _ _ _ clientSerial _ rfl hout
    (newest v steps).asSOA v.asSOA holder
  rw [← hrest] at hready
  exact ⟨t, hinit, hready.kind, drains_differences hready (by rw [hnew]; rfl) hdistinct⟩

/-! ### A zone of two versions -/

def soaRecord (serial : UInt32) : Record := newRecord .root 0 (.soa ⟨.root, .root, serial, 0, 0, 0, 0⟩)

def nsRecord : Record := newRecord .root 0 (.ns .root)

def sampleVersion (serial : UInt32) : Version := ⟨soaRecord serial, _, rfl⟩

def sampleStep : HistoryStep := ⟨[], [nsRecord], sampleVersion 2, by decide, by decide⟩

def sampleQuestion : Question := newQuestion .root .ixfr

def sampleMessage (answers : List Record) : Message := ⟨7, Flags.qr, [], answers, [], [], none⟩

theorem ixfr_history_sample :
    ∃ t, IxfrTransfer.init (newReader .ixfr ⟨[sampleMessage [soaRecord 2, soaRecord 1],
        sampleMessage [], sampleMessage [soaRecord 2, nsRecord, soaRecord 2]], .eof⟩ none 7 sampleQuestion) 1 = .ok t ∧
      t.kind = .incremental ∧ ∃ t', Drains IxfrTransfer.next t [.diff 1 2 [] [nsRecord]] .eof t' :=
  ixfr_history (sampleVersion 1) [sampleStep] (by decide) (by decide) 7 sampleQuestion _ rfl (by decide) 1

end Acidns.Transfer
