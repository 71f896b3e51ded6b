import Acidns.Wire.Message

/-!
# The same records behind another header

The packer looks at the number of bytes it has written and at its compression table, never at the
bytes. So a message is packed like one that differs from it only in the header, and a message
without its last record like the whole message up to that record.
-/

namespace Acidns

open List

open Octets (At bigEndian)

section Congr

variable {p q p' : Packer} {head body : List PackOp} {tooLarge : WireError} {rs : List Record} {r : Record}

theorem packFramed_of_run {front back : Bytes} {comp₁ comp₂ : List (Bytes × Nat)}
    (hhead : p.run head = ⟨p.buf ++ front, comp₁⟩)
    (hbody : ((p.run head).uint16 0).run body = ⟨((p.run head).uint16 0).buf ++ back, comp₂⟩) :
    packFramed tooLarge p head body = if back.length > 0xffff then .error tooLarge else
      .ok ⟨p.buf ++ (front ++ bigEndian 2 back.length ++ back), comp₂⟩ := by
  have hcount : (p.buf ++ front ++ bigEndian 2 0 ++ back).length - (p.buf ++ front ++ bigEndian 2 0).length =
      back.length := by
    rw [length_append, Nat.add_sub_cancel_left]
  simp only [packFramed, hbody, Packer.len]
  simp only [hhead, Packer.uint16, Packer.raw, UInt16.toNat_zero, hcount]
  rw [Packer.patch16_append, append_assoc, append_assoc, append_assoc]

section

variable (hlen : p.buf.length = q.buf.length) (hcomp : p.comp = q.comp)

include hlen hcomp

theorem packFramed_congr (h : packFramed tooLarge p head body = .ok p') :
    ∃ out comp, p' = ⟨p.buf ++ out, comp⟩ ∧ packFramed tooLarge q head body = .ok ⟨q.buf ++ out, comp⟩ := by
  obtain ⟨front, comp₁, hp, hq⟩ := @Packer.run_congr p head q hlen hcomp
  obtain ⟨back, comp₂, hpback, hqback⟩ := @Packer.run_congr ((p.run head).uint16 0) body ((q.run head).uint16 0)
    (by simp [Packer.uint16, Packer.raw, hp, hq, hlen]) (by simp [Packer.uint16, Packer.raw, hp, hq])
  rw [packFramed_of_run hp hpback] at h
  rw [packFramed_of_run hq hqback]
  split at h
  · cases h
  · rename_i hfit
    cases h
    exact ⟨_, _, rfl, if_neg hfit⟩

theorem packRecord_congr (h : packRecord p r = .ok p') :
    ∃ out comp, p' = ⟨p.buf ++ out, comp⟩ ∧ packRecord q r = .ok ⟨q.buf ++ out, comp⟩ := by
  grind [packRecord, packFramed_congr]

theorem packRecords_congr (h : rs.foldlM packRecord p = .ok p') :
    ∃ out comp, p' = ⟨p.buf ++ out, comp⟩ ∧ rs.foldlM packRecord q = .ok ⟨q.buf ++ out, comp⟩ := by
  induction rs generalizing p q with
  | nil =>
    obtain rfl := Except.ok.inj h
    exact ⟨[], p.comp, by simp, by simp [hcomp, pure, Except.pure]⟩
  | cons r rs ih =>
    obtain ⟨p₁, hr, hrs⟩ := bind_ok h
    obtain ⟨out, comp, rfl, hq⟩ := packRecord_congr hlen hcomp hr
    obtain ⟨out', comp', rfl, hq'⟩ := @ih ⟨p.buf ++ out, comp⟩ ⟨q.buf ++ out, comp⟩ (by simp [hlen]) rfl hrs
    refine ⟨out ++ out', comp', by simp, ?_⟩
    rw [foldlM_cons, hq]
    simpa [bind, Except.bind] using hq'

end

end Congr

/-! ### Whole messages -/

namespace Message

def records (m : Message) : List Record := m.answers ++ m.authorities ++ m.additionals

def header (m : Message) : Bytes := m.headerOps.flatMap PackOp.bytes

def questionBytes (m : Message) : Bytes := m.questions.flatMap fun q => q.ops.flatMap PackOp.bytes

variable {m : Message} {buf : Bytes} {init : List Record} {r : Record}

@[simp] theorem length_header (m : Message) : m.header.length = 12 := by
  simp [header, headerOps, PackOp.bytes]

theorem plain_headerOps (m : Message) : ∀ op ∈ m.headerOps, op.compressed = none := by
  simp [headerOps, PackOp.compressed]

theorem plain_questionOps (m : Message) : ∀ op ∈ m.questions.flatMap Question.ops, op.compressed = none := by
  grind [Question.ops, PackOp.compressed]

theorem run_opening (m : Message) :
    (Packer.new.run m.headerOps).run (m.questions.flatMap Question.ops) =
      ⟨m.header ++ m.questionBytes, []⟩ := by
  rw [Packer.run_plain m.plain_headerOps, Packer.run_plain m.plain_questionOps, flatMap_assoc]
  rfl

theorem pack_eq_ok : m.pack = .ok buf ↔
    (m.questions.length ≤ 0xffff ∧ m.answers.length ≤ 0xffff ∧ m.authorities.length ≤ 0xffff ∧
      m.additionals.length ≤ 0xffff) ∧
    ∃ p q, m.records.foldlM packRecord ⟨m.header ++ m.questionBytes, []⟩ = .ok p ∧
      packEdns p m.edns = .ok q ∧ q.buf.length ≤ 0xffff ∧ q.buf = buf := by
  have hrecords : m.records.foldlM packRecord ⟨m.header ++ m.questionBytes, []⟩ = (do
      let p ← m.answers.foldlM packRecord ⟨m.header ++ m.questionBytes, []⟩
      let p ← m.authorities.foldlM packRecord p
      m.additionals.foldlM packRecord p) := by
    simp only [records, foldlM_append, bind_assoc]
  rw [pack]
  dsimp only
  rw [run_opening, hrecords]
  constructor
  · intro h
    split at h
    · cases h
    · rename_i hcounts
      obtain ⟨pa, ha, h⟩ := bind_ok h
      obtain ⟨pn, hn, h⟩ := bind_ok h
      obtain ⟨pd, hd, h⟩ := bind_ok h
      obtain ⟨pe, he, h⟩ := bind_ok h
      split at h
      · cases h
      · rename_i hmax
        refine ⟨by omega, pd, pe, ?_, he, Nat.not_lt.mp hmax, Except.ok.inj h⟩
        simp only [ha, hn, hd, bind, Except.bind]
  · rintro ⟨hcounts, p, q, hrs, he, hmax, rfl⟩
    obtain ⟨pa, ha, hrs⟩ := bind_ok hrs
    obtain ⟨pn, hn, hd⟩ := bind_ok hrs
    rw [if_neg (by omega)]
    simp only [ha, hn, hd, he, bind, Except.bind]
    exact if_neg (Nat.not_lt.mpr hmax)

/-- Where the parts of a packed message without OPT stand: the last record from `lastAt` to the end, those before it
from `answersAt`. -/
structure Trailed (msg : Bytes) (m : Message) (init : List Record) (lastAt : Nat) : Prop where
  questions : Parser.Sequence (fun o q ks o' => Laid msg o (Question.ops q) ks o') 12 m.questions []
    (12 + m.questionBytes.length)
  init : ∃ hops, Parser.Sequence (Record.LaidOut msg) (12 + m.questionBytes.length) init hops lastAt

variable {additionals : List Record} {p q : Packer}

section

variable (hedns : m.edns = none) (hlast : m.additionals = additionals ++ [r]) (h : m.pack = .ok buf)

include hedns hlast h

/-- A packed message up to its last record. Behind another header it stands for the same records, with the same
pointers. -/
theorem pack_split : ∃ body tail ks ks', buf = m.header ++ body ++ tail ∧ m.hops = ks ++ ks' ∧
      (∀ id, { m with id, additionals }.pack = .ok ({ m with id, additionals }.header ++ body)) ∧
      (∀ msg, m.header ++ body <+: msg →
        Parser.Sequence (fun o q ks o' => Laid msg o (Question.ops q) ks o') 12 m.questions []
          (12 + m.questionBytes.length) ∧
        Parser.Sequence (Record.LaidOut msg) (12 + m.questionBytes.length) (m.answers ++ m.authorities ++ additionals)
          ks (m.header ++ body).length) ∧
      Record.LaidOut buf (m.header ++ body).length r ks' buf.length := by
  obtain ⟨hcounts, p, q, hrecords, hq, hmax, rfl⟩ := pack_eq_ok.mp h
  rw [hedns] at hq
  cases hq
  rw [records, hlast, ← append_assoc, foldlM_append] at hrecords
  obtain ⟨p₁, hinit, hrest⟩ := bind_ok hrecords
  obtain ⟨p₂, hr, hend⟩ := bind_ok hrest
  obtain rfl := Except.ok.inj hend
  obtain ⟨out, comp, hp₁, -⟩ := packRecords_congr rfl rfl hinit
  obtain ⟨tail, comp', hp₂, -⟩ := packRecord_congr rfl rfl hr
  have hbuf : p₂.buf = m.header ++ (m.questionBytes ++ out) ++ tail := by simp [hp₂, hp₁]
  -- the layout that the packer tracks from the header on
  obtain ⟨-, htracks, -⟩ := @laid_run Packer.new Layout.empty m.headerOps tracks_new
  obtain ⟨-, htracksq, hquestions⟩ := @laid_run _ _ (m.questions.flatMap Question.ops) htracks
  have hstart : (Packer.new.run m.headerOps).buf.length = 12 := by
    exact m.length_header
  rw [run_opening] at htracksq hquestions
  rw [Layout.run_plain m.plain_questionOps, hstart] at hquestions
  obtain ⟨-, htracksi, hlaid⟩ := packRecords_spec htracksq hinit
  obtain ⟨-, -, hlaidr⟩ := packRecord_spec htracksi hr
  have hlen : (m.header ++ m.questionBytes).length = 12 + m.questionBytes.length := by simp
  have hend : p₁.buf.length = (m.header ++ (m.questionBytes ++ out)).length := by simp [hp₁]
  rw [hlen] at hquestions hlaid
  generalize hlay : ((Layout.empty.run m.headerOps).1.run (m.questions.flatMap Question.ops)).1 = lay at *
  refine ⟨m.questionBytes ++ out, tail,
    (lay.run ((m.answers ++ m.authorities ++ additionals).flatMap Record.layoutOps)).2,
    ((lay.run ((m.answers ++ m.authorities ++ additionals).flatMap Record.layoutOps)).1.run r.layoutOps).2, hbuf, ?_,
    ?_, ?_, hend ▸ hlaidr _ (prefix_refl _)⟩
  · simp only [hops, layoutOps, hlast, Layout.run_append, Layout.run_plain m.plain_headerOps,
      Layout.run_plain m.plain_questionOps, nil_append, flatMap_append, append_assoc,
      flatMap_cons, flatMap_nil, append_nil, hlay]
  · intro id
    obtain ⟨out', comp'', hp₁', hother⟩ := @packRecords_congr ⟨m.header ++ m.questionBytes, []⟩
      ⟨{ m with id, additionals }.header ++ m.questionBytes, []⟩ p₁ _ (by simp) rfl hinit
    obtain rfl : out' = out := by
      rw [hp₁] at hp₁'
      exact (append_cancel_left (congrArg Packer.buf hp₁')).symm
    refine pack_eq_ok.mpr ⟨?_, _, ⟨{ m with id, additionals }.header ++ (m.questionBytes ++ out'), comp''⟩, hother,
      ?_, ?_, rfl⟩
    · grind
    · simp [packEdns, hedns]
    · simp only [hbuf, length_append, length_header] at hmax ⊢
      omega
  · intro msg hmsg
    have hfront : p₁.buf = m.header ++ (m.questionBytes ++ out) := by simp [hp₁]
    have hopening : m.header ++ m.questionBytes <+: msg :=
      List.IsPrefix.trans ⟨out, by simp⟩ hmsg
    exact ⟨(hquestions _ hopening).sequence, hend ▸ hlaid _ (hfront ▸ hmsg)⟩

theorem pack_dropLast (id : UInt16) : ∃ body tail, buf = m.header ++ body ++ tail ∧
      { m with id, additionals }.pack = .ok ({ m with id, additionals }.header ++ body) ∧
      m.Trailed buf (m.answers ++ m.authorities ++ additionals) (m.header ++ body).length := by
  obtain ⟨body, tail, ks, ks', hbuf, -, hpack, hlaid, -⟩ := pack_split hedns hlast h
  obtain ⟨hquestions, hinit⟩ := hlaid buf ⟨tail, hbuf.symm⟩
  exact ⟨body, tail, hbuf, hpack id, hquestions, ks, hinit⟩

end

/-! ### The message as it is received -/

/-- A message is read from any bytes in which its header, questions and records stand one after the other. -/
theorem unpackWith_of_sequences {msg : Bytes} {maxHops answersAt end_ : Nat} {ks : List Nat} (hm : m.Normal)
    (hedns : m.edns = none) (hcounts : m.questions.length ≤ 0xffff ∧ m.answers.length ≤ 0xffff ∧
      m.authorities.length ≤ 0xffff ∧ m.additionals.length ≤ 0xffff) (hheader : m.header <+: msg)
    (hquestions : Parser.Sequence (fun o q ks o' => Laid msg o (Question.ops q) ks o') 12 m.questions [] answersAt)
    (hrecords : Parser.Sequence (Record.LaidOut msg) answersAt m.records ks end_) (hks : ∀ hop ∈ ks, hop ≤ maxHops) :
    unpackWith maxHops msg = .ok m.sent := by
  have harcount : m.arcount = m.additionals.length := by simp [arcount, hedns]
  have hlaid : Laid msg 0 m.headerOps [] 12 := by
    obtain ⟨-, -, hlaid⟩ := @laid_run Packer.new Layout.empty m.headerOps tracks_new
    rw [Packer.run_plain m.plain_headerOps, Layout.run_plain m.plain_headerOps] at hlaid
    have hend := hlaid msg hheader
    rwa [show (Packer.new.raw (m.headerOps.flatMap PackOp.bytes)).buf.length = 12 from m.length_header] at hend
  rw [unpackWith_of_header hlaid hcounts.1 hcounts.2.1 hcounts.2.2.1 (by omega)]
  obtain ⟨additionalsAt, front, additionalHops, rfl, hfront, hadditionals⟩ := hrecords.append_inv
  obtain ⟨authoritiesAt, answerHops, authorityHops, rfl, hanswers, hauthorities⟩ := hfront.append_inv
  obtain ⟨hfrontHops, had⟩ := forall_mem_append.mp hks
  obtain ⟨han, hns⟩ := forall_mem_append.mp hfrontHops
  have hreads : (unpackSections m.id m.flags m.questions.length m.answers.length m.authorities.length
      m.arcount).Reads maxHops msg 12 m.sent end_ := by
    have hadd := reads_additionalRecords hm.additionals hadditionals had
    have hsent : m.sent = ⟨m.id, m.flags, m.questions.map Question.sent, m.answers.map Record.sent,
        m.authorities.map Record.sent, m.additionals.map Record.sent, none⟩ := by rw [sent, hedns]
    rw [← harcount] at hadd
    rw [hsent]
    exact Parser.Reads.bind (reads_unpackQuestions hm.questions hquestions) <|
      Parser.Reads.bind (reads_unpackRRs hm.answers hanswers han) <|
      Parser.Reads.bind (reads_unpackRRs hm.authorities hauthorities hns) <|
      Parser.Reads.bind hadd (Parser.reads_pure _)
  rw [hreads]

theorem questionBytes_sent (m : Message) : m.sent.questionBytes = m.questionBytes := by
  grind [PackOp.bytes, Question.sent, sent, Question.ops, questionBytes, List.flatMap_congr]

theorem header_sent (m : Message) : m.sent.header = m.header := by
  grind [arcount, sent, header, headerOps]

theorem packRecord_sent (h : packRecord p r = .ok q) : packRecord p r.sent = .ok q := by
  obtain ⟨httl, -⟩ := packRecord_ok h
  have hhead : r.sent.head = r.head := by
    simp only [Record.head, Record.sent, Duration.seconds32_ofSeconds32, Record.type]
  have hnonneg : ¬r.sent.ttl < 0 := Int.not_lt.mpr (Int.mul_nonneg (Int.natCast_nonneg _) (by decide))
  have hmax : ¬r.sent.ttl.tdiv second > maxRecordTTLSeconds := by
    have hdiv : r.sent.ttl.tdiv second = r.ttl.seconds32.toNat := Int.mul_tdiv_cancel _ (by decide)
    have hlt : r.ttl.seconds32.toNat < 0x80000000 := UInt32.lt_iff_toNat_lt.mp httl
    rw [hdiv, maxRecordTTLSeconds]
    omega
  rw [packRecord] at h
  split at h
  · cases h
  · split at h
    · cases h
    · rw [packRecord, if_neg hnonneg, if_neg hmax, hhead]
      exact h

theorem packRecords_sent {rs : List Record} (h : rs.foldlM packRecord p = .ok q) :
    (rs.map Record.sent).foldlM packRecord p = .ok q := by
  induction rs generalizing p with
  | nil => exact h
  | cons r rs ih =>
    obtain ⟨p', hr, hrs⟩ := bind_ok h
    rw [map_cons, foldlM_cons, packRecord_sent hr]
    exact ih hrs

theorem pack_sent (h : m.pack = .ok buf) : m.sent.pack = .ok buf := by
  obtain ⟨hcounts, p, q, hrecords, hq, hmax, hbuf⟩ := pack_eq_ok.mp h
  refine pack_eq_ok.mpr ⟨?_, p, q, ?_, hq, hmax, hbuf⟩
  · simpa only [sent, length_map] using hcounts
  · have hmap : m.sent.records = m.records.map Record.sent := by simp [records, sent]
    rw [hmap, header_sent, questionBytes_sent]
    exact packRecords_sent hrecords

end Message

end Acidns
