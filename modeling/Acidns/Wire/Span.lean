import Acidns.Wire.Message
import Acidns.Wire.Window

/-!
# The bytes that a message takes up

A name, a question and a record, as they stand in a message, are words of prefix codes: where a name
ends is told by the labels in place, whatever its pointers lead to, and a record tells the length of
its rdata. So the bytes of a message alone tell where its sections are, and `Unpack` moves its cursor
over just these words.
-/

namespace Acidns

open Octets (At Coincide readAt)
open Parser List
open Decoder
open PrefixCode (PrefixFree andThen block times)

/-! ### Words -/

/-- The bytes a name may take in a message, pointer included. -/
def nameWords : Set Bytes := {w | Labels.Inline w}

/-- The bytes of a question. -/
def questionWords : Set Bytes := andThen nameWords fun _ => block 4

/-- The bytes of a record, its rdata as long as its length field says. -/
def recordWords : Set Bytes :=
  andThen nameWords fun _ => andThen (block 10) fun fixed => block (readAt 2 fixed 8)

theorem prefixFree_nameWords : PrefixFree nameWords := Labels.prefixFree_inline

theorem prefixFree_questionWords : PrefixFree questionWords :=
  prefixFree_nameWords.andThen fun _ => PrefixCode.prefixFree_block 4

theorem prefixFree_recordWords : PrefixFree recordWords :=
  prefixFree_nameWords.andThen fun _ => (PrefixCode.prefixFree_block 10).andThen fun _ => PrefixCode.prefixFree_block _

section Words

variable {maxHops off next : Nat} {msg w : Bytes} {n : Name}

theorem word_of_decodeWire (h : decodeWire maxHops msg off = .ok (n, next)) :
    ∃ w ∈ nameWords, At msg off w ∧ next = off + w.length := by
  obtain ⟨ls, hops, hspells, -, -⟩ := spells_of_decodeWire h
  exact hspells.exists_inline

section

variable (hw : w ∈ nameWords) (hat : At msg off w)

include hw hat

theorem next_of_decodeWire (h : decodeWire maxHops msg off = .ok (n, next)) : next = off + w.length := by
  obtain ⟨w', hw', hat', rfl⟩ := word_of_decodeWire h
  rw [prefixFree_nameWords.unique hw' hw hat' hat]

theorem questionWord (hfit : off + w.length + 4 ≤ msg.length) :
    ∃ q ∈ questionWords, At msg off q ∧ q.length = w.length + 4 := by
  have hfour := Octets.length_take_drop hfit
  refine ⟨w ++ (msg.drop (off + w.length)).take 4, PrefixCode.append_mem_andThen hw hfour,
    Octets.at_append.mpr ⟨hat, Octets.at_take_drop _ _ _⟩, ?_⟩
  rw [length_append, hfour]

theorem recordWord (hfit : off + w.length + 10 + readAt 2 msg (off + w.length + 8) ≤ msg.length) :
    ∃ r ∈ recordWords, At msg off r ∧ r.length = w.length + 10 + readAt 2 msg (off + w.length + 8) := by
  generalize hlen : readAt 2 msg (off + w.length + 8) = len at hfit ⊢
  have hten : ((msg.drop (off + w.length)).take 10).length = 10 := Octets.length_take_drop (by omega)
  have hrdata : ((msg.drop (off + w.length + 10)).take len).length = len := Octets.length_take_drop hfit
  have hread : readAt 2 ((msg.drop (off + w.length)).take 10) 8 = len := by
    rw [← (Octets.at_take_drop msg _ 10).readAt_add (by rw [hten]), hlen]
  refine ⟨w ++ ((msg.drop (off + w.length)).take 10 ++ (msg.drop (off + w.length + 10)).take len), ?_, ?_, ?_⟩
  · refine PrefixCode.append_mem_andThen hw (PrefixCode.append_mem_andThen hten ?_)
    rw [hread]
    exact hrdata
  · refine Octets.at_append.mpr ⟨hat, Octets.at_append.mpr ⟨Octets.at_take_drop _ _ _, ?_⟩⟩
    rw [hten]
    exact Octets.at_take_drop _ _ _
  · simp only [length_append, hten, hrdata]
    omega

end

theorem recordWord_parts {r : Bytes} (hr : r ∈ recordWords) (hat : At msg off r) :
    ∃ w ∈ nameWords, At msg off w ∧ r.length = w.length + 10 + readAt 2 msg (off + w.length + 8) ∧
      off + r.length ≤ msg.length := by
  obtain ⟨w, hw, _, ⟨fixed, hten, rdata, hrdata, rfl⟩, rfl⟩ := hr
  obtain ⟨hname, hfixed⟩ := Octets.at_append.mp hat
  change fixed.length = 10 at hten
  have hend := hat.end_le (ne_nil_of_length_pos (by simp only [length_append]; omega))
  refine ⟨w, hw, hname, ?_, hend⟩
  rw [(Octets.at_append.mp hfixed).1.readAt_add (by omega), ← hrdata]
  simp only [length_append]
  omega

end Words

/-! ### Words one after the other -/

/-- Words of `C` stand one after the other from `off` to `off'`, at these offsets. -/
inductive Walks (C : Set Bytes) (msg : Bytes) : (offs : List Nat) → (off off' : Nat) → Prop
  | nil {off : Nat} : Walks C msg [] off off
  | cons {off off' : Nat} {offs : List Nat} {w : Bytes} (hw : w ∈ C) (hat : At msg off w)
      (hrest : Walks C msg offs (off + w.length) off') : Walks C msg (off :: offs) off off'

section Walks

variable {C : Set Bytes} {msg msg' : Bytes} {offs offs' : List Nat} {off mid off' : Nat}

section

variable (h : Walks C msg offs off off')

include h

theorem Walks.le : off ≤ off' := by
  induction h with
  | nil => exact Nat.le_refl _
  | cons _ _ _ ih => omega

theorem Walks.le_of_mem {o : Nat} (ho : o ∈ offs) : off ≤ o := by
  induction h with
  | nil => exact absurd ho not_mem_nil
  | cons _ _ _ ih =>
    rcases mem_cons.mp ho with rfl | ho
    · exact Nat.le_refl _
    · exact Nat.le_trans (Nat.le_add_right _ _) (ih ho)

theorem Walks.exists_word : ∃ w ∈ times C offs.length, At msg off w ∧ off' = off + w.length := by
  induction h with
  | nil => exact ⟨[], PrefixCode.nil_mem_times, Octets.at_nil, rfl⟩
  | @cons off off' offs w hw hat _ ih =>
    obtain ⟨rest, hrest, hat', rfl⟩ := ih
    refine ⟨w ++ rest, PrefixCode.append_mem_andThen hw hrest, Octets.at_append.mpr ⟨hat, hat'⟩, ?_⟩
    rw [length_append, Nat.add_assoc]

theorem Walks.of_coincide (hsame : Coincide msg msg' off off') : Walks C msg' offs off off' := by
  induction h with
  | nil => exact .nil
  | cons hw hat hrest ih =>
    have hle := hrest.le
    refine .cons hw ((hsame.mono (Nat.le_refl _) hle).at_iff (Nat.le_refl _) |>.mp hat) (ih ?_)
    exact hsame.mono (Nat.le_add_right _ _) (Nat.le_refl _)

end

theorem Walks.append (h : Walks C msg offs off mid) (h' : Walks C msg offs' mid off') :
    Walks C msg (offs ++ offs') off off' := by
  induction h with
  | nil => exact h'
  | cons hw hat _ ih => exact .cons hw hat (ih h')

theorem Walks.unique (hC : PrefixFree C) (h : Walks C msg offs off mid) (h' : Walks C msg offs' off off')
    (hlen : offs.length = offs'.length) : offs = offs' ∧ mid = off' := by
  induction h generalizing offs' off' with
  | nil =>
    obtain rfl := length_eq_zero_iff.mp hlen.symm
    cases h'
    exact ⟨rfl, rfl⟩
  | cons hw hat _ ih =>
    cases h' with
    | nil => cases hlen
    | cons hw' hat' hrest' =>
      obtain rfl := hC.unique hw hw' hat hat'
      obtain ⟨rfl, rfl⟩ := ih hrest' (Nat.succ.inj hlen)
      exact ⟨rfl, rfl⟩

theorem ensures_iterate_walks {ρ ε σ : Type} {env : ρ} {step : Nat → σ → Parser ρ ε σ} {P : Bytes → Nat → Prop}
    (hstep : ∀ i s c, (step i s).Ensures env c fun _ c' =>
      c'.msg = c.msg ∧ P c.msg c.off ∧ ∃ w ∈ C, At c.msg c.off w ∧ c'.off = c.off + w.length)
    (n i : Nat) (s : σ) (c : Cursor) : (iterate step n i s).Ensures env c fun _ c' =>
      c'.msg = c.msg ∧ ∃ offs, offs.length = n ∧ Walks C c.msg offs c.off c'.off ∧ ∀ o ∈ offs, P c.msg o := by
  induction n generalizing i s c with
  | zero => exact .pure ⟨rfl, [], rfl, .nil, by simp⟩
  | succ n ih =>
    refine .bind ((hstep i s c).mono ?_)
    rintro s' c' ⟨hmsg, hP, w, hw, hat, hoff⟩
    refine (ih (i + 1) s' c').mono ?_
    rintro s'' c'' ⟨hmsg', offs, hlen, hwalk, hall⟩
    rw [hmsg] at hmsg' hwalk hall
    rw [hoff] at hwalk
    exact ⟨hmsg', c.off :: offs, by rw [length_cons, hlen], .cons hw hat hwalk,
      forall_mem_cons.mpr ⟨hP, hall⟩⟩

end Walks

/-! ### Decoders move the cursor only -/

instance : KeepsMessage remaining := by unfold remaining; infer_instance
instance : KeepsMessage name := by unfold name; infer_instance
instance (end_ : Nat) (opts : List EDNSOption) : KeepsMessage (unpackOption end_ opts) := by
  dsimp only [unpackOption]; infer_instance

/-! ### What `Unpack` moves over -/

section Unpack

variable {maxHops : Nat} {c : Unpacker}

theorem ensures_name_word {post : Name → Unpacker → Prop}
    (h : ∀ n, ∀ w ∈ nameWords, At c.msg c.off w → decodeWire maxHops c.msg c.off = .ok (n, c.off + w.length) →
      post n ⟨c.msg, c.off + w.length⟩) : name.Ensures maxHops c post := by
  refine .bind (.message (.bind (.offset
    (.bind (.environment (.bind (.ofExcept ?_)))))))
  rintro ⟨n, next⟩ hr
  obtain ⟨w, hw, hat, rfl⟩ := word_of_decodeWire hr
  exact .bind (.setOffset (.pure (h n w hw hat hr)))

theorem ensures_uint16_at {post : UInt16 → Unpacker → Prop}
    (h : c.off + 2 ≤ c.msg.length → ∀ v : UInt16, v.toNat = readAt 2 c.msg c.off → post v ⟨c.msg, c.off + 2⟩) :
    uint16.Ensures maxHops c post := by
  intro v c' hok
  obtain ⟨bs, d, htake, hok⟩ := bind_eq_ok.mp hok
  obtain ⟨rfl, rfl⟩ : UInt16.ofNat (Octets.ofBigEndian bs.val) = v ∧ d = c' := by
    simpa [pure] using hok
  rw [Parser.take] at htake
  split at htake
  · cases htake
  · rename_i hfit
    cases htake
    refine h (Nat.not_lt.mp hfit) _ ?_
    have hlt := Octets.readAt_lt 2 c.msg c.off
    exact toNat_ofNat16 (Nat.le_of_lt_succ hlt)

theorem RData.ensures_unpack_off {t : RRType} {rdlen : Nat} : (RData.unpack t rdlen).Ensures maxHops c fun _ c' =>
    c' = ⟨c.msg, c.off + rdlen⟩ ∧ c.off + rdlen ≤ c.msg.length := by
  intro r c' h
  obtain ⟨hoff, hread⟩ := RData.unpack_eq_ok.mp h
  exact ⟨hoff, (RData.reads_unpack_iff.mp hread).1⟩

/-- The position moves over one record. -/
def OverRecord (c c' : Unpacker) : Prop :=
  c'.msg = c.msg ∧ ∃ w ∈ recordWords, At c.msg c.off w ∧ c'.off = c.off + w.length

theorem overRecord_of_parts {w : Bytes} {rdlen : UInt16} (hw : w ∈ nameWords) (hat : At c.msg c.off w)
    (hrdlen : rdlen.toNat = readAt 2 c.msg (c.off + w.length + 8))
    (hfit : c.off + w.length + 10 + rdlen.toNat ≤ c.msg.length) :
    OverRecord c ⟨c.msg, c.off + w.length + 10 + rdlen.toNat⟩ := by
  grind [recordWord, OverRecord]

theorem ensures_unpackRecord_over : unpackRecord.Ensures maxHops c fun _ c' => OverRecord c c' := by
  refine .bind <| ensures_name_word fun n w hw hat _ => .bind <| ensures_uint16 fun _ =>
    .bind <| ensures_uint16 fun _ => .bind <| ensures_uint32 fun _ => .bind <|
    ensures_uint16_at fun _ rdlen hrdlen => .bind <| RData.ensures_unpack_off.mono ?_
  rintro rd c' ⟨rfl, hfit⟩
  exact .pure (overRecord_of_parts hw hat hrdlen hfit)

theorem ensures_unpackOPT_over : unpackOPT.Ensures maxHops c fun _ c' => OverRecord c c' := by
  refine .bind <| ensures_name_word fun n w hw hat _ => .bind <| .failIf fun _ =>
    .bind <| ensures_uint16 fun _ => .bind <| .failIf fun _ =>
    .bind <| ensures_uint16 fun _ => .bind <| ensures_uint32 fun _ => .bind <|
    ensures_uint16_at fun _ rdlen hrdlen => .bind <| .bind <| .message <|
    .bind <| .offset <| .pure <| .bind <| .failIf fun hleft =>
    .bind <| .offset <| .bind <| (ensures_msg_eq _).mono fun _ c' hmsg =>
    .bind <| .offset <| .bind <| .failIf fun hoff =>
    .pure ?_
  rw [not_not] at hoff
  have hfit : c.off + w.length + 10 + rdlen.toNat ≤ c.msg.length := by
    simp only at hleft
    omega
  have hover := overRecord_of_parts hw hat hrdlen hfit
  have hcursor : c' = ⟨c.msg, c.off + w.length + 10 + rdlen.toNat⟩ := by
    rw [← hmsg, ← hoff]
  rwa [hcursor]

theorem ensures_unpackAdditional_over (i : Nat) (s : List Record × Option EDNS) :
    (unpackAdditional i s).Ensures maxHops c fun _ c' => OverRecord c c' := by
  refine .bind <| .offset <| .bind <| ensures_mapError.mpr <|
    (ensures_msg_eq name).mono fun _ c₁ hmsg => .bind <| ensures_mapError.mpr <|
    (ensures_msg_eq uint16).mono fun t c₂ hmsg' => .bind <| .setOffset ?_
  rw [hmsg', hmsg]
  split
  · exact .bind <| .failIf fun _ => .bind <| ensures_mapError.mpr <|
      ensures_unpackOPT_over.mono fun _ _ h => .pure h
  · exact .bind <| ensures_mapError.mpr <| ensures_unpackRecord_over.mono fun _ _ h => .pure h

/-- At the offset stands a name without pointers. -/
def PlainName (msg : Bytes) (off : Nat) : Prop :=
  ∃ (n : Name) (ls : List Bytes), (∀ l ∈ ls, Labels.IsLabel l) ∧ n.wire = Labels.encode (ls.map foldLabel) ∧
    At msg off (Labels.encode ls)

theorem ensures_unpackQuestion_over : unpackQuestion.Ensures maxHops c fun _ c' => c'.msg = c.msg ∧
    PlainName c.msg c.off ∧ ∃ w ∈ questionWords, At c.msg c.off w ∧ c'.off = c.off + w.length := by
  refine .bind <| .message <| .bind <| .offset <| .bind <|
    ensures_name_word fun n w hw hat hdecode => .bind <| .offset <| .bind <|
    .failIf fun hno => .bind <| ensures_uint16 fun _ => .bind <|
    ensures_uint16_at fun hfit _ _ => .pure ⟨rfl, ?_, ?_⟩
  · obtain ⟨ls, hops, hspells, hwire, -⟩ := spells_of_decodeWire hdecode
    exact ⟨n, ls, hspells.isLabel, hwire, (inline_of_noPointer hspells rfl hno).1⟩
  · grind [questionWord]

/-! ### Whole messages -/

/-- The questions and some records of a message, at these offsets. -/
structure Spread (msg : Bytes) (qs rs : List Nat) (answersAt end_ : Nat) : Prop where
  questions : Walks questionWords msg qs 12 answersAt
  qdcount : qs.length = readAt 2 msg 4
  records : Walks recordWords msg rs answersAt end_

/-- The records that the header announces. -/
def recordCount (msg : Bytes) : Nat := readAt 2 msg 6 + readAt 2 msg 8 + readAt 2 msg 10

theorem ensures_iterate_over {σ : Type} {step : Nat → σ → MessageDecoder σ}
    (hstep : ∀ i s c, (step i s).Ensures maxHops c fun _ c' => OverRecord c c') (n : Nat) (s : σ) (c : Unpacker) :
    (iterate step n 0 s).Ensures maxHops c fun _ c' =>
      c'.msg = c.msg ∧ ∃ rs, rs.length = n ∧ Walks recordWords c.msg rs c.off c'.off := by
  have hwalks := ensures_iterate_walks (P := fun _ _ => True)
    (fun i s c => (hstep i s c).mono fun _ _ h => ⟨h.1, trivial, h.2⟩) n 0 s c
  refine hwalks.mono ?_
  rintro _ c' ⟨hmsg, rs, hlen, hwalk, -⟩
  exact ⟨hmsg, rs, hlen, hwalk⟩

theorem ensures_unpackRRs_over (section_ : MessageSection) (n : Nat) (c : Unpacker) :
    (unpackRRs section_ n).Ensures maxHops c fun _ c' =>
      c'.msg = c.msg ∧ ∃ rs, rs.length = n ∧ Walks recordWords c.msg rs c.off c'.off := by
  refine ensures_iterate_over ?_ n [] c
  intro i out c
  exact .bind <| ensures_mapError.mpr <| ensures_unpackRecord_over.mono fun _ _ h => .pure h

theorem ensures_unpackQuestions_over (n : Nat) (c : Unpacker) : (unpackQuestions n).Ensures maxHops c fun _ c' =>
    c'.msg = c.msg ∧ ∃ qs, qs.length = n ∧ Walks questionWords c.msg qs c.off c'.off ∧
      ∀ o ∈ qs, PlainName c.msg o := by
  refine ensures_iterate_walks ?_ n 0 [] c
  intro i out c
  exact .bind <| ensures_mapError.mpr <| ensures_unpackQuestion_over.mono fun _ _ h => .pure h

theorem ensures_unpackSections_over {id : UInt16} {flags : Flags} {qdcount ancount nscount arcount : Nat} :
    (unpackSections id flags qdcount ancount nscount arcount).Ensures maxHops c fun _ c' => c'.msg = c.msg ∧
      ∃ qs rs answersAt, Walks questionWords c.msg qs c.off answersAt ∧ qs.length = qdcount ∧
        Walks recordWords c.msg rs answersAt c'.off ∧ rs.length = ancount + nscount + arcount ∧
        ∀ o ∈ qs, PlainName c.msg o := by
  refine .bind <| (ensures_unpackQuestions_over qdcount c).mono ?_
  rintro _ c₁ ⟨hmsg₁, qs, hqs, hquestions, hplain⟩
  refine .bind <| (ensures_unpackRRs_over .answer ancount c₁).mono ?_
  rintro _ c₂ ⟨hmsg₂, an, han, hanswers⟩
  refine .bind <| (ensures_unpackRRs_over .authority nscount c₂).mono ?_
  rintro _ c₃ ⟨hmsg₃, ns, hns, hauthorities⟩
  refine .bind <| (ensures_iterate_over (fun i s c => ensures_unpackAdditional_over i s) arcount
    ([], none) c₃).mono ?_
  rintro _ c₄ ⟨hmsg₄, ar, har, hadditionals⟩
  rw [hmsg₃, hmsg₂, hmsg₁] at hadditionals
  rw [hmsg₂, hmsg₁] at hauthorities
  rw [hmsg₁] at hanswers
  refine .pure ⟨by rw [hmsg₄, hmsg₃, hmsg₂, hmsg₁], qs, an ++ ns ++ ar, c₁.off, hquestions, hqs,
    (hanswers.append hauthorities).append hadditionals, ?_, hplain⟩
  rw [length_append, length_append, han, hns, har]

theorem ensures_unpackMessage_over {msg : Bytes} : unpackMessage.Ensures maxHops ⟨msg, 0⟩ fun _ c =>
    c.msg = msg ∧ 12 ≤ msg.length ∧ ∃ qs rs answersAt, Spread msg qs rs answersAt c.off ∧
      rs.length = recordCount msg ∧ ∀ o ∈ qs, PlainName msg o := by
  have hheader : ∀ {f : UInt16 → MessageDecoder Message} {off : Nat} {post : Message → Unpacker → Prop},
      (off + 2 ≤ msg.length → ∀ v : UInt16, v.toNat = readAt 2 msg off → (f v).Ensures maxHops ⟨msg, off + 2⟩ post) →
        ((mapError (itemError .header (-1)) uint16) >>= f).Ensures maxHops ⟨msg, off⟩ post := fun h =>
    .bind <| ensures_mapError.mpr <| ensures_uint16_at fun hfit v hv => h hfit v hv
  refine hheader fun _ id _ => hheader fun _ flags _ => hheader fun _ qdcount hqd => hheader fun _ ancount han =>
    hheader fun _ nscount hns => hheader fun hfit arcount har => ensures_unpackSections_over.mono ?_
  rintro m' c' ⟨hmsg, qs, rs, answersAt, hquestions, hqs, hrecords, hrs, hplain⟩
  refine ⟨hmsg, hfit, qs, rs, answersAt, ⟨hquestions, hqs.trans hqd, hrecords⟩, ?_, hplain⟩
  rw [hrs, han, hns, har, recordCount]

end Unpack

/-! ### Packed records -/

section Packed

variable {maxHops off off' : Nat} {msg : Bytes} {hops : List Nat} {r : Record} {rs : List Record}

theorem Record.LaidOut.word (h : Record.LaidOut msg off r hops off') :
    ∃ w ∈ recordWords, At msg off w ∧ off' = off + w.length := by
  obtain ⟨hop, back, next, mid, rdlen, -, hname, -, -, -, hrdlen, rfl, -, rfl⟩ := h.inv
  obtain ⟨w, hw, hat, rfl⟩ := hname.exists_inline
  have hread : readAt 2 msg (off + w.length + 8) = rdlen.toNat := by
    rw [hrdlen.readAt, Octets.toNat_mod_word]
  obtain ⟨x, hx, hat', hlen⟩ := recordWord hw hat (by rw [hread]; exact h.2.2)
  refine ⟨x, hx, hat', ?_⟩
  omega

theorem walks_of_laidOut (hrs : ∀ r ∈ rs, r.name.isValid) (h : Sequence (Record.LaidOut msg) off rs hops off') :
    ∃ offs, offs.length = rs.length ∧ Walks recordWords msg offs off off' ∧
      ((∀ hop ∈ hops, hop ≤ maxHops) → ∀ o ∈ offs, ∃ n next, decodeWire maxHops msg o = .ok (n, next)) := by
  induction h with
  | nil => exact ⟨[], rfl, .nil, by simp⟩
  | @cons off mid off' r rs ks ks' hr _ ih =>
    obtain ⟨hfirst, hrs⟩ := forall_mem_cons.mp hrs
    obtain ⟨offs, hlen, hwalk, hread⟩ := ih hrs
    obtain ⟨w, hw, hat, rfl⟩ := hr.word
    refine ⟨off :: offs, by rw [length_cons, hlen, length_cons], .cons hw hat hwalk, ?_⟩
    intro hhops
    obtain ⟨hks, hks'⟩ := forall_mem_append.mp hhops
    obtain ⟨hop, next, hmem, hname, -⟩ := hr.peek
    exact forall_mem_cons.mpr ⟨⟨r.name, next, Name.decodeWire_of_spells hfirst hname (hks hop hmem)⟩,
      hread hks'⟩

end Packed

end Acidns
