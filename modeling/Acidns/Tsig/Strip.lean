import Acidns.Tsig.Walk
import Acidns.Wire.Repack

/-!
# Stripping the signature off a packed message

The verifiers of zone transfers see parsed messages and pack them again. On a packed message the
walker finds the last record where the packer put it, so what is left after stripping is the packed
message without that record.
-/

namespace Acidns.Tsig

open List

open Octets (At bigEndian readAt writeAt)
open Parser (Sequence)
open Decoder (toNat_ofNat16)

section Walk

variable {msg : Bytes} {off off' : Nat} {hops : List Nat} {r : Record} {rs : List Record} {q : Question}
  {qs : List Question}

/-- A name spelled at the offset is the one decoded there. -/
theorem decodeName_of_spells {context : String} {n n' : Name} {hop next next' : Nat} (hn : n.isValid)
    (hspells : Labels.Spells msg off n.labels hop next) (h : decodeName context msg off = .ok (n', next')) :
    n' = n ∧ next' = next := by
  rw [decodeName_eq_ok] at h
  by_cases hhop : hop ≤ maxPtrHops
  · rw [Name.decodeWire_of_spells hn hspells hhop] at h
    cases h
    exact ⟨rfl, rfl⟩
  · obtain ⟨e, he⟩ := Name.decodeWire_of_spells_gt hn hspells (Nat.not_le.mp hhop)
    exact absurd (he.symm.trans h) nofun

theorem skipQuestions_of_laid (hqs : ∀ q ∈ qs, q.name.isValid ∧ (q.rawName.length > 0 → q.Spelled))
    (h : Sequence (fun o q ks o' => Laid msg o (Question.ops q) ks o') off qs hops off') :
    skipQuestions msg qs.length off = .ok off' := by
  induction h with
  | nil => rfl
  | cons hq _ ih =>
    obtain ⟨hfirst, hqs⟩ := forall_mem_cons.mp hqs
    obtain ⟨next, hdecode, rfl, hend⟩ := @Question.decodeWire_of_laid maxPtrHops _ _ _ _ _ hfirst.1 hfirst.2 hq
    have hfit : refuseIf (next + 4 > msg.length) (plainError "tsig: truncated question") = .ok () :=
      refuseIf_ok.mpr (Nat.not_lt.mpr hend)
    rw [length_cons, skipQuestions, decodeName_eq_ok.mpr hdecode]
    simp only [bind, Except.bind, hfit]
    exact ih hqs

theorem walkRRs_of_sequence {last start : Nat} (hrs : ∀ r ∈ rs, r.name.isValid)
    (h : Sequence (Record.LaidOut msg) off rs hops off') (hwalk : walkRRs msg (rs.length + 1) off last = .ok start) :
    start = off' := by
  obtain ⟨offs, hlen, hwalks, -⟩ := walkRRs_eq_ok.mp hwalk
  obtain ⟨offs', hlen', hwalks', -⟩ := @walks_of_laidOut 0 _ _ _ _ _ hrs h
  exact (hwalks.unique prefixFree_recordWords hwalks' (by rw [hlen, hlen'])).2

section

variable {answersAt : Nat} (hqd : readAt 2 msg 4 = qs.length)
  (hqs : ∀ q ∈ qs, q.name.isValid ∧ (q.rawName.length > 0 → q.Spelled))
  (hquestions : Sequence (fun o q ks o' => Laid msg o (Question.ops q) ks o') 12 qs [] answersAt)
  (hcount : readAt 2 msg 6 + readAt 2 msg 8 + readAt 2 msg 10 = rs.length + 1)

include hqd hqs hquestions hcount

theorem findLastRROffset_of_sequence {start : Nat} (hrs : ∀ r ∈ rs, r.name.isValid)
    (hrecords : Sequence (Record.LaidOut msg) answersAt rs hops off') (h : findLastRROffset msg = .ok start) :
    start = off' := by
  rw [findLastRROffset, hqd, skipQuestions_of_laid hqs hquestions, hcount] at h
  obtain ⟨_, hok, h⟩ := bind_ok h
  cases hok
  obtain ⟨last, hwalk, h⟩ := bind_ok h
  obtain ⟨_, -, h⟩ := bind_ok h
  cases h
  exact walkRRs_of_sequence hrs hrecords hwalk

/-- In a packed message the walk ends at the last record. -/
theorem findLastRROffset_of_laidOut {end_ : Nat} {r : Record} {ks : List Nat} (hpos : 0 < readAt 2 msg 10)
    (hrs : ∀ r ∈ rs, r.name.isValid) (hrecords : Sequence (Record.LaidOut msg) answersAt rs hops off')
    (hr : r.name.isValid) (hlast : Record.LaidOut msg off' r ks end_) (hhops : ∀ hop ∈ hops ++ ks, hop ≤ maxPtrHops) :
    findLastRROffset msg = .ok off' := by
  obtain ⟨hhops, hks⟩ := forall_mem_append.mp hhops
  obtain ⟨offs, hlen, hwalks, hread⟩ := walks_of_laidOut hrs hrecords
  obtain ⟨w, hw, hat, rfl⟩ := hlast.word
  obtain ⟨hop, next, hmem, hname, -⟩ := hlast.peek
  have hskip := skipRR_eq_ok.mpr ⟨⟨r.name, next, Name.decodeWire_of_spells hr hname (hks hop hmem)⟩, w, hw, hat, rfl⟩
  have hsome : ¬rs.length + 1 ≤ readAt 2 msg 6 + readAt 2 msg 8 := by omega
  have hwalk := (@walkRRs_eq_ok _ _ _ answersAt _).mpr ⟨offs, hlen, hwalks, hread hhops, _, hskip⟩
  rw [findLastRROffset, hqd, skipQuestions_of_laid hqs hquestions, hcount]
  simp only [bind, Except.bind, hwalk, refuseIf, if_neg hsome]
  rfl

end

end Walk

/-! ### Packed messages -/

section Packed

variable {m : Message} {buf stripped : Bytes} {tsig : ParsedTSIG}

/-- The counts of the header are those of the sections. -/
theorem readAt_counts (h : m.pack = .ok buf) :
    readAt 2 buf 4 = m.questions.length ∧ readAt 2 buf 6 = m.answers.length ∧
      readAt 2 buf 8 = m.authorities.length ∧ readAt 2 buf 10 = m.arcount := by
  obtain ⟨hq, ha, hn, -, hmax, ⟨hlaid⟩⟩ := Message.pack_ok h
  obtain ⟨-, -, hqd, han, hns, har, -⟩ := Message.header_words hlaid.header
  have hword : ∀ {off n : Nat}, n ≤ 0xffff → At buf off (bigEndian 2 (UInt16.ofNat n).toNat) → readAt 2 buf off = n := by
    intro off n hn hat
    rw [hat.readAt, toNat_ofNat16 hn, Nat.mod_eq_of_lt (by omega)]
  exact ⟨hword hq hqd, hword ha han, hword hn hns, hword (hlaid.arcount_le hmax) har⟩

theorem valid_of_mem_records {r : Record} (hm : m.Normal) (hr : r ∈ m.records) : r.name.isValid := by
  simp only [Message.records, mem_append] at hr
  rcases hr with (hr | hr) | hr
  · exact (hm.answers r hr).1
  · exact (hm.authorities r hr).1
  · exact (hm.additionals r hr).1.1

/-- Behind an OPT record no signature is found. -/
theorem not_signed_of_edns {e : EDNS} {start off : Nat} {n : Name} {context : String} (hm : m.Normal)
    (hpack : m.pack = .ok buf) (hedns : m.edns = some e) (hstart : findLastRROffset buf = .ok start)
    (hdecode : decodeName context buf start = .ok (n, off)) : readAt 2 buf off = optTypeWire.toNat := by
  obtain ⟨hqd, han, hns, har⟩ := readAt_counts hpack
  obtain ⟨-, -, -, -, -, ⟨hlaid⟩⟩ := Message.pack_ok hpack
  have hquestions := hlaid.questions
  rw [(Message.header_words hlaid.header).2.2.2.2.2.2] at hquestions
  have hcount : readAt 2 buf 6 + readAt 2 buf 8 + readAt 2 buf 10 = m.records.length + 1 := by
    simp only [han, hns, har, Message.arcount, Message.records, hedns, length_append, Option.isSome_some, if_true]
    omega
  obtain rfl := findLastRROffset_of_sequence hqd hm.questions hquestions hcount
    (fun r hr => valid_of_mem_records hm hr) ((hlaid.answers.append hlaid.authorities).append hlaid.additionals) hstart
  obtain ⟨rdlen, hname, htype, -⟩ := (hlaid.edns e hedns).inv
  obtain ⟨-, rfl⟩ := decodeName_of_spells (n := Name.root) (by decide) (.root hname) hdecode
  exact htype.readAt

/-- The words of the header between the ID and the last count. -/
def middleWords (m : Message) : Bytes :=
  bigEndian 2 m.flags.toNat ++ bigEndian 2 (UInt16.ofNat m.questions.length).toNat ++
    bigEndian 2 (UInt16.ofNat m.answers.length).toNat ++ bigEndian 2 (UInt16.ofNat m.authorities.length).toNat

theorem header_eq (m : Message) : m.header =
    bigEndian 2 m.id.toNat ++ middleWords m ++ bigEndian 2 (UInt16.ofNat m.arcount).toNat := by
  simp [Message.header, Message.headerOps, PackOp.bytes, middleWords]

section

variable {additionals : List Record} (hedns : m.edns = none) (hmax : additionals.length ≤ 0xffff) (body : Bytes)

include hedns hmax

theorem writeAt_arcount :
    writeAt 2 (m.header ++ body) 10 additionals.length = { m with additionals }.header ++ body := by
  have hten : (bigEndian 2 m.id.toNat ++ middleWords m).length = 10 := by simp [middleWords]
  have harcount : (UInt16.ofNat { m with additionals }.arcount).toNat = additionals.length := by
    rw [Message.arcount, hedns]
    exact toNat_ofNat16 hmax
  have hmiddle : middleWords { m with additionals } = middleWords m := rfl
  rw [header_eq, header_eq, harcount, hmiddle, ← hten]
  exact Octets.writeAt_append _ _ _ _

theorem writeAt_header (id : UInt16) :
    writeAt 2 (writeAt 2 (m.header ++ body) 10 additionals.length) 0 id.toNat =
      { m with id, additionals }.header ++ body := by
  have hid := @Octets.writeAt_append 2 [] (middleWords m ++ bigEndian 2 (UInt16.ofNat { m with additionals }.arcount).toNat
    ++ body) m.id.toNat id.toNat
  have harcount : { m with id, additionals }.arcount = { m with additionals }.arcount := rfl
  have hmiddle : middleWords { m with id, additionals } = middleWords m := rfl
  have hmiddle' : middleWords { m with additionals } = middleWords m := rfl
  rw [writeAt_arcount hedns hmax, header_eq, header_eq, harcount, hmiddle, hmiddle']
  simpa [append_assoc] using hid

end

/-- Stripping a packed message leaves the message packed without its last record. -/
theorem pack_of_stripTSIG (hm : m.Normal) (hpack : m.pack = .ok buf) (h : stripTSIG buf = .ok (stripped, tsig)) :
    m.edns = none ∧ { m with id := tsig.origID, additionals := m.additionals.dropLast }.pack =
      .ok (writeAt 2 stripped 0 tsig.origID.toNat) := by
  obtain ⟨hqd, han, hns, har⟩ := readAt_counts hpack
  obtain ⟨_, -, h⟩ := bind_ok h
  obtain ⟨_, hsome, h⟩ := bind_ok h
  obtain ⟨start, hstart, h⟩ := bind_ok h
  obtain ⟨⟨owner, off⟩, howner, h⟩ := bind_ok h
  obtain ⟨_, -, h⟩ := bind_ok h
  obtain ⟨_, htype, h⟩ := bind_ok h
  obtain ⟨_, -, h⟩ := bind_ok h
  obtain ⟨tsig', -, h⟩ := bind_ok h
  obtain ⟨rfl, rfl⟩ := Prod.mk.inj (Except.ok.inj h)
  simp only [refuseIf_ok, not_not] at hsome htype
  have hedns : m.edns = none := by
    refine Option.eq_none_iff_forall_ne_some.mpr fun e hedns => ?_
    rw [not_signed_of_edns hm hpack hedns hstart howner] at htype
    exact absurd htype (by decide)
  refine ⟨hedns, ?_⟩
  have hne : m.additionals ≠ [] := fun hnil => hsome (by rw [har, Message.arcount, hedns, hnil]; rfl)
  obtain ⟨additionals, r, hlast⟩ := (eq_nil_or_concat m.additionals).resolve_left hne
  rw [concat_eq_append] at hlast
  obtain ⟨body, tail, hbuf, hrepack, hquestions, hops, hinit⟩ :=
    Message.pack_dropLast hedns hlast hpack tsig'.origID
  have harcount : m.arcount = additionals.length + 1 := by simp [Message.arcount, hedns, hlast]
  have hvalid : ∀ r ∈ m.answers ++ m.authorities ++ additionals, r.name.isValid := fun r hr =>
    valid_of_mem_records hm (by simp only [Message.records, hlast, mem_append] at hr ⊢; tauto)
  have hcount : readAt 2 buf 6 + readAt 2 buf 8 + readAt 2 buf 10 =
      (m.answers ++ m.authorities ++ additionals).length + 1 := by
    simp only [han, hns, har, harcount, length_append]
    omega
  obtain rfl := findLastRROffset_of_sequence hqd hm.questions hquestions hcount hvalid hinit hstart
  have hmax : additionals.length ≤ 0xffff := by
    have hfit := (Message.pack_ok hpack).2.2.2.1
    rw [hlast, length_append] at hfit
    exact Nat.le_of_add_right_le hfit
  rw [har, harcount, Nat.add_sub_cancel, hlast, dropLast_concat, hrepack, hbuf, take_left,
    writeAt_header hedns hmax]

end Packed

end Acidns.Tsig
