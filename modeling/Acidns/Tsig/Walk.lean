import Acidns.Tsig.Basic
import Acidns.Wire.Span

/-!
# The walk to the last record

The walker of `tsig.go` goes from name to name over the questions and records of a message. It needs
every name to be readable, but it goes on behind the labels in place, so it takes the same way in
every message that has the same bytes in the range it covers.
-/

namespace Acidns.Tsig

open Octets (At readAt writeAt)
open PrefixCode (PrefixFree andThen block times)

/-- A name can be read at the offset. -/
def Decodes (msg : Bytes) (off : Nat) : Prop := ∃ n next, decodeWire maxPtrHops msg off = .ok (n, next)

section Walk

variable {msg : Bytes} {off off' behind next n last start : Nat} {nm : Name}

theorem decodeName_eq_ok {context : String} :
    decodeName context msg off = .ok (nm, next) ↔ decodeWire maxPtrHops msg off = .ok (nm, next) :=
  mapError_eq_ok

theorem skipRR_eq_ok : skipRR msg off = .ok behind ↔
    Decodes msg off ∧ ∃ w ∈ recordWords, At msg off w ∧ behind = off + w.length := by
  constructor
  · intro h
    obtain ⟨⟨nm, next⟩, hname, h⟩ := bind_ok h
    obtain ⟨_, -, h⟩ := bind_ok h
    obtain ⟨_, hrdata, h⟩ := bind_ok h
    cases h
    rw [decodeName_eq_ok] at hname
    obtain ⟨w, hw, hat, rfl⟩ := word_of_decodeWire hname
    obtain ⟨r, hr, hat', hlen⟩ := recordWord hw hat (Nat.not_lt.mp (refuseIf_ok.mp hrdata))
    refine ⟨⟨nm, _, hname⟩, r, hr, hat', ?_⟩
    omega
  · rintro ⟨⟨nm, next, hname⟩, r, hr, hat, rfl⟩
    obtain ⟨w, hw, hat', hlen, hend⟩ := recordWord_parts hr hat
    obtain rfl := next_of_decodeWire hw hat' hname
    have hheader : ¬off + w.length + 10 > msg.length := by omega
    have hbody : ¬off + w.length + 10 + readAt 2 msg (off + w.length + 8) > msg.length := by omega
    rw [skipRR, decodeName_eq_ok.mpr hname]
    simp only [bind, Except.bind, refuseIf, if_neg hheader, if_neg hbody, pure, Except.pure]
    congr 1
    omega

/-- The walk over the questions, name by name. -/
theorem skipQuestions_eq_ok : skipQuestions msg n off = .ok off' ↔
    ∃ offs, offs.length = n ∧ Walks questionWords msg offs off off' ∧ ∀ o ∈ offs, Decodes msg o := by
  induction n generalizing off with
  | zero =>
    constructor
    · intro h
      cases h
      exact ⟨[], rfl, .nil, by simp⟩
    · rintro ⟨offs, hlen, hwalk, -⟩
      obtain rfl := List.length_eq_zero_iff.mp hlen
      cases hwalk
      rfl
  | succ n ih =>
    constructor
    · intro h
      obtain ⟨⟨nm, next⟩, hname, h⟩ := bind_ok h
      obtain ⟨_, hfixed, h⟩ := bind_ok h
      rw [decodeName_eq_ok] at hname
      obtain ⟨w, hw, hat, rfl⟩ := word_of_decodeWire hname
      obtain ⟨q, hq, hat', hlen⟩ := questionWord hw hat (Nat.not_lt.mp (refuseIf_ok.mp hfixed))
      obtain ⟨offs, rfl, hwalk, hread⟩ := ih.mp h
      refine ⟨off :: offs, rfl, .cons hq hat' ?_, List.forall_mem_cons.mpr ⟨⟨nm, _, hname⟩, hread⟩⟩
      rwa [hlen, ← Nat.add_assoc]
    · rintro ⟨offs, hlen, hwalk, hread⟩
      cases hwalk with
      | nil => cases hlen
      | cons hq hat hrest =>
        obtain ⟨⟨nm, next, hname⟩, hread⟩ := List.forall_mem_cons.mp hread
        obtain ⟨w, hw, fixed, hfour, rfl⟩ := hq
        change fixed.length = 4 at hfour
        obtain ⟨hat, hfixed⟩ := Octets.at_append.mp hat
        obtain rfl := next_of_decodeWire hw hat hname
        have hend := hfixed.end_le (List.ne_nil_of_length_pos (by omega))
        rw [List.length_append, hfour, ← Nat.add_assoc] at hrest
        have hfit : ¬off + w.length + 4 > msg.length := by omega
        rw [skipQuestions, decodeName_eq_ok.mpr hname]
        simp only [bind, Except.bind, refuseIf, if_neg hfit]
        exact ih.mpr ⟨_, Nat.succ.inj hlen, hrest, hread⟩

theorem walkRRs_eq_ok : walkRRs msg (n + 1) off last = .ok start ↔
    ∃ offs, offs.length = n ∧ Walks recordWords msg offs off start ∧ (∀ o ∈ offs, Decodes msg o) ∧
      ∃ behind, skipRR msg start = .ok behind := by
  induction n generalizing off last with
  | zero =>
    constructor
    · intro h
      obtain ⟨behind, hskip, h⟩ := bind_ok h
      cases h
      exact ⟨[], rfl, .nil, by simp, behind, hskip⟩
    · rintro ⟨offs, hlen, hwalk, -, behind, hskip⟩
      obtain rfl := List.length_eq_zero_iff.mp hlen
      cases hwalk
      rw [walkRRs, hskip]
      rfl
  | succ n ih =>
    constructor
    · intro h
      obtain ⟨behind, hskip, h⟩ := bind_ok h
      obtain ⟨hname, w, hw, hat, rfl⟩ := skipRR_eq_ok.mp hskip
      obtain ⟨offs, rfl, hwalk, hread, hlast⟩ := ih.mp h
      exact ⟨off :: offs, rfl, .cons hw hat hwalk, List.forall_mem_cons.mpr ⟨hname, hread⟩, hlast⟩
    · rintro ⟨offs, hlen, hwalk, hread, hlast⟩
      cases hwalk with
      | nil => cases hlen
      | cons hw hat hrest =>
        obtain ⟨hname, hread⟩ := List.forall_mem_cons.mp hread
        rw [walkRRs, skipRR_eq_ok.mpr ⟨hname, _, hw, hat, rfl⟩]
        exact (@ih _ off).mpr ⟨_, Nat.succ.inj hlen, hrest, hread, hlast⟩

end Walk

/-! ### The message in front of the last record -/

/-- The walk succeeds when every name on its way decodes. -/
theorem findLastRROffset_eq_ok {msg : Bytes} {start : Nat} : findLastRROffset msg = .ok start ↔
    0 < readAt 2 msg 10 ∧ ∃ qs rs answersAt, Spread msg qs rs answersAt start ∧
      rs.length + 1 = recordCount msg ∧ (∀ o ∈ qs, Decodes msg o) ∧ (∀ o ∈ rs, Decodes msg o) ∧
      ∃ behind, skipRR msg start = .ok behind := by
  constructor
  · intro h
    obtain ⟨answersAt, hquestions, h⟩ := bind_ok h
    obtain ⟨last, hrecords, h⟩ := bind_ok h
    obtain ⟨_, hsome, h⟩ := bind_ok h
    cases h
    rw [refuseIf_ok] at hsome
    have hpos : 0 < readAt 2 msg 10 := by omega
    obtain ⟨n, hn⟩ : ∃ n, readAt 2 msg 6 + readAt 2 msg 8 + readAt 2 msg 10 = n + 1 :=
      Nat.exists_eq_add_one_of_ne_zero (by omega)
    rw [hn] at hrecords
    obtain ⟨qs, hqdcount, hwalk, hread⟩ := skipQuestions_eq_ok.mp hquestions
    obtain ⟨rs, hcount, hwalk', hread', hlast⟩ := walkRRs_eq_ok.mp hrecords
    exact ⟨hpos, qs, rs, answersAt, ⟨hwalk, hqdcount, hwalk'⟩, by rw [hcount, recordCount, hn],
      hread, hread', hlast⟩
  · rintro ⟨hpos, qs, rs, answersAt, ⟨hwalk, hqdcount, hwalk'⟩, hcount, hread, hread', hlast⟩
    have hsome : ¬recordCount msg ≤ readAt 2 msg 6 + readAt 2 msg 8 := by
      rw [recordCount]
      omega
    have hrecords := (@walkRRs_eq_ok _ _ _ answersAt _).mpr ⟨rs, rfl, hwalk', hread', hlast⟩
    rw [findLastRROffset, skipQuestions_eq_ok.mpr ⟨qs, hqdcount, hwalk, hread⟩]
    change (walkRRs msg (recordCount msg) answersAt answersAt >>= fun last =>
      refuseIf (recordCount msg ≤ readAt 2 msg 6 + readAt 2 msg 8) _ >>= fun _ => pure last) = _
    rw [← hcount, hrecords]
    simp only [bind, Except.bind, refuseIf, hcount, if_neg hsome]
    rfl

/-- The messages that end where their header says. -/
def bodyWords : Set Bytes :=
  andThen (block 12) fun header => andThen (times questionWords (readAt 2 header 4)) fun _ =>
    times recordWords (recordCount header)

theorem prefixFree_bodyWords : PrefixFree bodyWords :=
  (PrefixCode.prefixFree_block 12).andThen fun _ => (prefixFree_questionWords.times _).andThen fun _ =>
    prefixFree_recordWords.times _

section Strip

variable {msg stripped : Bytes} {tsig : ParsedTSIG}

theorem stripTSIG_eq_ok (h : stripTSIG msg = .ok (stripped, tsig)) : 12 ≤ msg.length ∧ tsig.timeSigned < 256 ^ 6 ∧
    ∃ start, findLastRROffset msg = .ok start ∧ stripped = writeAt 2 (msg.take start) 10 (readAt 2 msg 10 - 1) := by
  obtain ⟨_, hlen, h⟩ := bind_ok h
  obtain ⟨_, -, h⟩ := bind_ok h
  obtain ⟨start, hstart, h⟩ := bind_ok h
  obtain ⟨⟨owner, off⟩, -, h⟩ := bind_ok h
  obtain ⟨_, -, h⟩ := bind_ok h
  obtain ⟨_, -, h⟩ := bind_ok h
  obtain ⟨_, -, h⟩ := bind_ok h
  obtain ⟨tsig', hparse, h⟩ := bind_ok h
  cases h
  rw [refuseIf_ok, Nat.not_lt] at hlen
  refine ⟨hlen, ?_, start, hstart, rfl⟩
  obtain ⟨⟨alg, algEnd⟩, -, hparse⟩ := bind_ok hparse
  obtain ⟨_, -, hparse⟩ := bind_ok hparse
  obtain ⟨_, -, hparse⟩ := bind_ok hparse
  obtain ⟨_, -, hparse⟩ := bind_ok hparse
  rw [← Except.ok.inj hparse]
  exact Octets.readAt_lt 6 msg algEnd

theorem readAt_header {header : Bytes} (hlen : header.length = 12) (arcount id : Nat) :
    (writeAt 2 (writeAt 2 header 10 arcount) 0 id).length = 12 ∧
      (∀ off, 2 ≤ off → off + 2 ≤ 10 →
        readAt 2 (writeAt 2 (writeAt 2 header 10 arcount) 0 id) off = readAt 2 header off) ∧
      readAt 2 (writeAt 2 (writeAt 2 header 10 arcount) 0 id) 10 = arcount % 65536 := by
  have hlen' : (writeAt 2 header 10 arcount).length = 12 := by rw [Octets.length_writeAt (by omega), hlen]
  refine ⟨by rw [Octets.length_writeAt (by omega), hlen'], ?_, ?_⟩
  · intro off hlow hhigh
    rw [Octets.readAt_congr (Octets.coincide_writeAt (by omega) (.inr (by omega))),
      Octets.readAt_congr (Octets.coincide_writeAt (by omega) (.inl hhigh))]
  · rw [Octets.readAt_congr (Octets.coincide_writeAt (by omega) (.inr (by omega))), Octets.readAt_writeAt (by omega)]
    rfl

/-- What is signed is a word of the prefix code of bodies. -/
theorem writeAt_mem_bodyWords (h : stripTSIG msg = .ok (stripped, tsig)) (id : Nat) :
    writeAt 2 stripped 0 id ∈ bodyWords := by
  obtain ⟨hlen, -, start, hstart, rfl⟩ := stripTSIG_eq_ok h
  obtain ⟨hpos, qsAt, rsAt, answersAt, hspread, hcount, -⟩ := findLastRROffset_eq_ok.mp hstart
  obtain ⟨qs, hqs, hatq, rfl⟩ := hspread.questions.exists_word
  obtain ⟨rs, hrs, hatr, rfl⟩ := hspread.records.exists_word
  have hheader : (msg.take 12).length = 12 := by
    rw [List.length_take]
    omega
  have htake : msg.take (12 + qs.length + rs.length) = msg.take 12 ++ (qs ++ rs) := by
    have hat := Octets.at_append.mpr ⟨hatq, hatr⟩
    rw [Nat.add_assoc, ← List.length_append, List.take_add, hat.take_drop]
  have hsame : ∀ off, off + 2 ≤ 12 → readAt 2 (msg.take 12) off = readAt 2 msg off := by
    intro off hoff
    apply Octets.readAt_congr
    intro i _ hi
    rw [List.getElem?_take_of_lt (by omega)]
  obtain ⟨hlen', hword, harcount⟩ := readAt_header hheader (readAt 2 msg 10 - 1) id
  have hlt := Octets.readAt_lt 2 msg 10
  rw [htake, Octets.writeAt_append_left (by omega), Octets.writeAt_append_left (by rw [Octets.length_writeAt] <;> omega)]
  refine ⟨_, hlen', qs ++ rs, ⟨qs, ?_, rs, ?_, rfl⟩, rfl⟩
  · rw [hword 4 (by omega) (by omega), hsame 4 (by omega), ← hspread.qdcount]
    exact hqs
  · have hnum : recordCount (writeAt 2 (writeAt 2 (msg.take 12) 10 (readAt 2 msg 10 - 1)) 0 id) = rsAt.length := by
      rw [recordCount, hword 6 (by omega) (by omega), hword 8 (by omega) (by omega), harcount, hsame 6 (by omega),
        hsame 8 (by omega)]
      rw [recordCount] at hcount
      omega
    rw [hnum]
    exact hrs

end Strip

end Acidns.Tsig
