import Acidns.Transfer.Ixfr

/-!
# Serving a whole zone

`StreamAXFR` of `authoritative/authoritative.go`: the zone between two copies of its SOA, cut into
messages of a bounded estimated size. Room for the closing SOA is kept in every message but those
that a single record fills.
-/

namespace Acidns.Authoritative

open Transfer List
open Program (Drains)

def axfrChunkBudget : Nat := 16 * 1024

/-- The source's guess at a packed size. -/
def estimateRecordSize (rec : Record) : Nat := rec.name.wireLen + 10 + (Packer.new.run rec.rd.ops).len

/-- Messages written so far, and the one being filled. -/
structure AxfrWriter where
  written : List Message
  answers : List Record
  used : Nat

def axfrMessage (q : Message) (question : Question) (answers : List Record) : Message :=
  let flags := (0 : Flags).withResponse true |>.withRecursionDesired q.flags.recursionDesired
    |>.withAuthoritative true
  ⟨q.id, flags, [question], answers, [], [], none⟩

namespace AxfrWriter

def flush (q : Message) (question : Question) (w : AxfrWriter) : AxfrWriter :=
  ⟨w.written ++ [axfrMessage q question w.answers], [], 0⟩

def add (q : Message) (question : Question) (soaSize : Nat) (w : AxfrWriter) (rec : Record) : AxfrWriter :=
  if rec.type = .soa then w
  else
    let recSize := estimateRecordSize rec
    let w := if w.used > 0 ∧ w.used + recSize + soaSize > axfrChunkBudget then w.flush q question else w
    { w with answers := w.answers ++ [rec], used := w.used + recSize }

def close (q : Message) (question : Question) (soa : Record) (soaSize : Nat) (w : AxfrWriter) : List Message :=
  let w := if w.used + soaSize > axfrChunkBudget then w.flush q question else w
  w.written ++ [axfrMessage q question (w.answers ++ [soa])]

end AxfrWriter

/-- The zone between two copies of its SOA, cut into messages. -/
def streamAXFR (q : Message) (soa : Record) (body : List Record) : Except String (List Message) :=
  match q.questions with
  | [] => .error "authoritative: StreamAXFR: request has no question"
  | question :: _ =>
    let soaSize := estimateRecordSize soa
    let start : AxfrWriter := ⟨[], [soa], soaSize⟩
    .ok ((body.foldl (AxfrWriter.add q question soaSize) start).close q question soa soaSize)

/-! ### The size of a record -/

theorem length_nameLoop_le (fuel : Nat) (wire : Bytes) (p : Packer) :
    (Packer.nameLoop fuel wire p).buf.length ≤ p.buf.length + wire.length + 1 := by
  induction fuel generalizing wire p with
  | zero =>
    rw [Packer.nameLoop]
    omega
  | succ fuel ih =>
    cases wire with
    | nil => simp [Packer.nameLoop]
    | cons l rest => grind [Packer.nameLoop, Packer.raw, Labels.reference, Packer.remember]

theorem length_name_le (p : Packer) (n : Name) : (p.name n).buf.length ≤ p.buf.length + 256 := by
  have hloop := length_nameLoop_le (Packer.nameWire n).length (Packer.nameWire n) p
  have hwire : (Packer.nameWire n).length ≤ 255 := by
    have hlen := n.wireLen_le
    unfold Packer.nameWire Name.appendWire
    unfold Name.wireLen at hlen
    split
    · rename_i hvalid
      rw [if_pos hvalid] at hlen
      simpa [maxNameLen] using hlen
    · simp
  unfold Packer.name
  omega

theorem estimateRecordSize_pos (rec : Record) : 0 < estimateRecordSize rec := by
  unfold estimateRecordSize
  omega

theorem estimateRecordSize_soa {rec : Record} {soa : SOA} (h : rec.asSOA = some soa) : estimateRecordSize rec ≤ 797 := by
  have hrd : rec.rd = .soa soa := by
    rw [Record.asSOA.eq_def] at h
    split at h
    · rename_i soa' hrd
      rw [hrd, Option.some.inj h]
    · cases h
  have hname := rec.name.wireLen_le
  have hmname := length_name_le Packer.new soa.mname
  have hrname := length_name_le (Packer.new.name soa.mname) soa.rname
  have hlen : (Packer.new.run rec.rd.ops).len = ((Packer.new.name soa.mname).name soa.rname).buf.length + 20 := by
    rw [hrd]
    simp [RData.ops, SOA.ops, Packer.run, Packer.apply, Packer.uint32, Packer.raw, Packer.len]
  rw [estimateRecordSize, hlen]
  simp only [maxNameLen, Packer.new, length_nil] at hname hmname hrname ⊢
  omega

/-! ### What is written -/

def zoneBody (body : List Record) : List Record := body.filter fun rec => rec.type ≠ .soa

def estimatedSize (answers : List Record) : Nat := (answers.map estimateRecordSize).sum

section Writer

variable {q : Message} {question : Question} {soa rec : Record} {soaSize : Nat} {w : AxfrWriter} {body : List Record}

def Fits (body answers : List Record) (room : Nat) : Prop :=
  answers ≠ [] ∧ (estimatedSize answers + room ≤ axfrChunkBudget ∨ ∃ rec ∈ zoneBody body, answers = [rec])

theorem Fits.mono {answers : List Record} {room room' : Nat} (h : Fits body answers room) (hle : room' ≤ room) :
    Fits body answers room' := by
  grind [Fits]

structure AxfrWriter.Sound (q : Message) (question : Question) (body : List Record) (soaSize : Nat) (w : AxfrWriter)
    (sent : List Record) : Prop where
  sent : w.written.flatMap (fun m => m.answers) ++ w.answers = sent
  used : w.used = estimatedSize w.answers
  current : Fits body w.answers soaSize
  written : ∀ m ∈ w.written, Fits body m.answers 0
  shape : ∀ m ∈ w.written, m = axfrMessage q question m.answers

variable {sent : List Record}

theorem shape_append {ms : List Message} (h : ∀ m ∈ ms, m = axfrMessage q question m.answers) (rs : List Record) :
    ∀ m ∈ ms ++ [axfrMessage q question rs], m = axfrMessage q question m.answers := by
  grind [axfrMessage]

section

variable (h : w.Sound q question body soaSize sent)

include h

theorem AxfrWriter.Sound.flush :
    (∀ m ∈ (w.flush q question).written, Fits body m.answers 0) ∧
      ∀ m ∈ (w.flush q question).written, m = axfrMessage q question m.answers := by
  constructor
  · intro m hm
    rcases mem_append.mp hm with hm | hm
    · exact h.written m hm
    · obtain rfl := mem_singleton.mp hm
      exact h.current.mono (Nat.zero_le _)
  · exact shape_append h.shape w.answers

/-- The writer keeps order and budget as a record is added. -/
theorem AxfrWriter.Sound.add (hrec : rec ∈ body) :
    (w.add q question soaSize rec).Sound q question body soaSize (sent ++ zoneBody [rec]) := by
  unfold AxfrWriter.add
  by_cases htype : rec.type = .soa
  · rw [if_pos htype]
    simpa [zoneBody, htype] using h
  · have hbody : zoneBody [rec] = [rec] := by simp [zoneBody, htype]
    have hmem : rec ∈ zoneBody body := by simp [zoneBody, htype, hrec]
    rw [if_neg htype, hbody]
    dsimp only
    split
    · -- the message is full, and the record starts the next
      refine ⟨?_, ?_, ?_, h.flush.1, h.flush.2⟩
      · simp only [AxfrWriter.flush, flatMap_append, flatMap_singleton, nil_append]
        rw [← h.sent]
        rfl
      · simp [AxfrWriter.flush, estimatedSize]
      · exact ⟨by simp, .inr ⟨rec, hmem, rfl⟩⟩
    · rename_i hroom
      refine ⟨?_, ?_, ⟨by simp, .inl ?_⟩, h.written, h.shape⟩
      · rw [← h.sent, append_assoc]
      · rw [h.used]
        simp [estimatedSize]
      · have hpos : w.used > 0 := by
          rw [h.used]
          obtain ⟨first, rest, hcons⟩ := exists_cons_of_ne_nil h.current.1
          have := estimateRecordSize_pos first
          rw [hcons]
          simp only [estimatedSize, map_cons, sum_cons]
          omega
        have hfit : ¬w.used + estimateRecordSize rec + soaSize > axfrChunkBudget := fun hover => hroom ⟨hpos, hover⟩
        rw [h.used] at hfit
        simp only [estimatedSize, map_append, sum_append, map_cons, map_nil, sum_singleton]
          at hfit ⊢
        omega

theorem AxfrWriter.Sound.foldl (recs : List Record)
    (hrecs : ∀ rec ∈ recs, rec ∈ body) :
    (recs.foldl (AxfrWriter.add q question soaSize) w).Sound q question body soaSize (sent ++ zoneBody recs) := by
  induction recs generalizing w sent with
  | nil => simpa [zoneBody] using h
  | cons rec recs ih =>
    obtain ⟨hhead, htail⟩ := forall_mem_cons.mp hrecs
    have hrest := ih (h.add hhead) htail
    rw [append_assoc] at hrest
    have hsplit : zoneBody (rec :: recs) = zoneBody [rec] ++ zoneBody recs :=
      filter_append (p := fun rec : Record => decide (rec.type ≠ .soa)) [rec] recs
    rw [hsplit]
    exact hrest

theorem AxfrWriter.Sound.close (hsize : estimateRecordSize soa = soaSize)
    (hsmall : soaSize ≤ axfrChunkBudget) :
    (w.close q question soa soaSize).flatMap (fun m => m.answers) = sent ++ [soa] ∧
      (∀ m ∈ w.close q question soa soaSize, Fits body m.answers 0) ∧
      ∀ m ∈ w.close q question soa soaSize, m = axfrMessage q question m.answers := by
  unfold AxfrWriter.close
  split
  · refine ⟨?_, ?_, ?_⟩
    · rw [flatMap_append, ← h.sent]
      simp [AxfrWriter.flush, axfrMessage]
    · intro m hm
      rcases mem_append.mp hm with hm | hm
      · exact h.flush.1 m hm
      · obtain rfl := mem_singleton.mp hm
        exact ⟨by simp [axfrMessage], .inl (by simpa [axfrMessage, AxfrWriter.flush, estimatedSize, hsize] using hsmall)⟩
    · exact shape_append h.flush.2 _
  · rename_i hroom
    refine ⟨?_, ?_, ?_⟩
    · rw [flatMap_append, ← h.sent]
      simp [axfrMessage]
    · intro m hm
      rcases mem_append.mp hm with hm | hm
      · exact h.written m hm
      · obtain rfl := mem_singleton.mp hm
        refine ⟨by simp [axfrMessage], .inl ?_⟩
        rw [h.used] at hroom
        simp only [axfrMessage, estimatedSize, map_append, sum_append, map_cons, map_nil,
          sum_singleton, hsize] at hroom ⊢
        omega
    · exact shape_append h.shape _

end
end Writer

/-! ### From the server to the client -/

theorem checkEnvelope_axfrMessage (q : Message) (question : Question) (answers : List Record) :
    checkEnvelope q.id question (axfrMessage q question answers) = .ok () := by
  have hrcode : ∀ rd : Bool, (((0 : Flags).withResponse true |>.withRecursionDesired rd
      |>.withAuthoritative true).rcode = RCODE.noError) := by decide
  have hquestion : questionMismatch question [question] = false := by simp [questionMismatch, Name.equal]
  simp [checkEnvelope, axfrMessage, refuseIf, hrcode, hquestion, bind, Except.bind]

theorem splitClosing_zone {soa : Record} {data : SOA} (hsoa : soa.asSOA = some data) {recs : List Record}
    (hrecs : ∀ rec ∈ recs, rec.type ≠ .soa) :
    splitClosing data.serial false (soa :: recs ++ [soa]) = some (soa :: recs ++ [soa], []) := by
  have hbracket : isBracket data.serial soa = true := by simp [isBracket, hsoa]
  have hrest : splitClosing data.serial true (recs ++ [soa]) = some (recs ++ [soa], []) := by
    induction recs with
    | nil => simp [splitClosing, hbracket]
    | cons rec recs ih => grind [splitClosing, isBracket_of_type]
  rw [cons_append, splitClosing, if_pos hbracket, hrest]
  rfl

/-- **Zone transfers, from server to client.** The client gets the zone between two copies of the SOA, by AXFR as by
IXFR, in messages of bounded size, unless a single record fills one. -/
theorem streamAXFR_received (q : Message) (question : Question) (hq : q.questions.head? = some question)
    (soa : Record) (data : SOA) (hsoa : soa.asSOA = some data) (body : List Record) :
    ∃ messages, streamAXFR q soa body = .ok messages ∧
      (∃ t t', ZoneTransfer.init (newReader .axfr ⟨messages, .eof⟩ none q.id question) = .ok t ∧
        Drains ZoneTransfer.next t (soa :: zoneBody body ++ [soa]) .eof t') ∧
      (∀ clientSerial, ¬(zoneBody body = [] ∧ clientSerial = data.serial) →
        ∃ t t', IxfrTransfer.init (newReader .ixfr ⟨messages, .eof⟩ none q.id question) clientSerial = .ok t ∧
          t.kind = .axfrFallback ∧
          Drains IxfrTransfer.next t ((soa :: zoneBody body ++ [soa]).map .record) .eof t') ∧
      ∀ m ∈ messages, m.answers ≠ [] ∧ (estimatedSize m.answers ≤ axfrChunkBudget ∨
        ∃ rec ∈ zoneBody body, m.answers = [rec]) := by
  obtain ⟨rest, hquestions⟩ : ∃ rest, q.questions = question :: rest := List.head?_eq_some_iff.mp hq
  have hsize := estimateRecordSize_soa hsoa
  have hstart : (⟨[], [soa], estimateRecordSize soa⟩ : AxfrWriter).Sound q question body (estimateRecordSize soa) [soa] := by
    refine ⟨rfl, by simp [estimatedSize], ⟨by simp, .inl ?_⟩, by simp, by simp⟩
    simp only [estimatedSize, map_cons, map_nil, sum_singleton, axfrChunkBudget]
    omega
  have hloop := hstart.foldl body fun _ h => h
  obtain ⟨hanswers, hfits, hshape⟩ := hloop.close rfl (by unfold axfrChunkBudget; omega)
  generalize hmessages : AxfrWriter.close q question soa (estimateRecordSize soa) _ = messages at hanswers hfits hshape
  have hcheck : ∀ m ∈ messages, checkEnvelope q.id question m = .ok () := by
    intro m hm
    rw [hshape m hm]
    exact checkEnvelope_axfrMessage q question m.answers
  have hout : ∀ protocol, (newReader protocol ⟨messages, .eof⟩ none q.id question).outcome =
      (soa :: zoneBody body ++ [soa], .eof) := by
    intro protocol
    rw [outcome_newReader, accepted_of_check hcheck, hanswers]
    rfl
  have hbody : ∀ rec ∈ zoneBody body, rec.type ≠ .soa := fun rec hrec => by simpa using of_mem_filter hrec
  refine ⟨messages, ?_, ?_, ?_, ?_⟩
  · rw [streamAXFR, hquestions]
    exact congrArg Except.ok hmessages
  · obtain ⟨t, hinit, -, hhands⟩ := hands_of_outcome rfl (hout .axfr) hsoa
    rw [show soa :: (zoneBody body).append [soa] = soa :: zoneBody body ++ [soa] from rfl,
      splitClosing_zone hsoa hbody] at hhands
    obtain ⟨t', hdrains, -⟩ := hhands
    exact ⟨t, t', hinit, hdrains⟩
  · intro clientSerial hchanged
    obtain ⟨rec2, recs, hcons, hsecond⟩ : ∃ rec2 recs, zoneBody body ++ [soa] = rec2 :: recs ∧
        ∀ soa2, rec2.asSOA = some soa2 → soa2.serial = data.serial ∧ data.serial ≠ clientSerial := by
      cases hzone : zoneBody body with
      | nil => grind
      | cons rec recs =>
        refine ⟨rec, recs ++ [soa], rfl, fun soa2 hsoa2 => ?_⟩
        exact absurd (Record.type_of_asSOA hsoa2) (hbody rec (by rw [hzone]; exact .head _))
    have hout' := hout .ixfr
    rw [cons_append, hcons] at hout'
    obtain ⟨t, hinit, hkind, hnew, hfresh⟩ := fallback_of_outcome rfl hout' hsoa hsecond
    have hhands := hands_next hfresh.done hfresh.outcome
    rw [hfresh.emittedFirstSOA, hnew, ← hcons, ← cons_append, splitClosing_zone hsoa hbody] at hhands
    obtain ⟨z', hdrains, -⟩ := hhands
    exact ⟨t, _, hinit, hkind, drains_fallback hdrains rfl hkind⟩
  · exact fun m hm => hfits m hm

theorem streamAXFR_received_root : ∃ messages,
    streamAXFR ⟨7, 0, [newQuestion .root .axfr], [], [], [], none⟩ (newRecord .root 0 (.soa ⟨.root, .root, 2, 0, 0, 0, 0⟩))
      [newRecord .root 0 (.ns .root)] = .ok messages ∧ ∀ m ∈ messages, m.answers ≠ [] := by
  obtain ⟨messages, hstream, -, -, hfits⟩ := streamAXFR_received ⟨7, 0, [newQuestion .root .axfr], [], [], [], none⟩
    (newQuestion .root .axfr) rfl (newRecord .root 0 (.soa ⟨.root, .root, 2, 0, 0, 0, 0⟩)) _ rfl
    [newRecord .root 0 (.ns .root)]
  exact ⟨messages, hstream, fun m hm => (hfits m hm).1⟩

end Acidns.Authoritative
