import Acidns.Wire.Compare
import Acidns.Wire.Size

/-!
# Asking over UDP

`exchanger_udp.go`: a query goes out in one datagram, with the letters of its name in random case, and datagrams are
read until one of them answers it. Datagrams that do not are counted by what is wrong with them, and each count has
its own budget.

A datagram that carries the right ID and question is taken without a look at its QR bit, and only the first
question is compared byte by byte.

Deadlines and contexts are left out: the socket delivers a list of datagrams, and the read behind the last one fails.
-/

namespace Acidns

open List

open Octets (At bigEndian)

namespace UDPClient

/-! ### The first question in a datagram -/

inductive QuestionError where
  | shortHeader
  | truncatedName
  | compressionPointer
  | truncatedFields
  deriving DecidableEq

/-- The end of the name at an offset. Each step goes forward, so the datagram ends before the fuel does. -/
def nameEnd (msg : Bytes) : (fuel off : Nat) → Except QuestionError Nat
  | 0, _ => .error .truncatedName
  | fuel + 1, off =>
    match msg[off]? with
    | none => .error .truncatedName
    | some l =>
      if l = 0 then .ok (off + 1)
      else if l &&& 0xc0 ≠ 0 then .error .compressionPointer
      else nameEnd msg fuel (off + 1 + l.toNat)

def questionSectionBytes (msg : Bytes) : Except QuestionError Bytes :=
  if msg.length < 12 then .error .shortHeader
  else do
    let off ← nameEnd msg msg.length 12
    if off + 4 > msg.length then .error .truncatedFields
    else .ok ((msg.take (off + 4)).drop 12)

section QuestionSection

variable {msg four first : Bytes} {ls : List Bytes} {off fuel : Nat}

theorem nameEnd_encode (hls : ∀ l ∈ ls, Labels.IsLabel l) (hat : At msg off (Labels.encode ls))
    (hfuel : ls.length < fuel) : nameEnd msg fuel off = .ok (off + (Labels.encode ls).length) := by
  induction ls generalizing off fuel with
  | nil =>
    obtain ⟨fuel, rfl⟩ := Nat.exists_eq_succ_of_ne_zero (Nat.ne_zero_of_lt hfuel)
    rw [nameEnd, At.getElem? hat]
    rfl
  | cons l ls ih =>
    obtain ⟨fuel, rfl⟩ := Nat.exists_eq_succ_of_ne_zero (Nat.ne_zero_of_lt hfuel)
    have hl := hls l (.head _)
    obtain ⟨hhead, hrest⟩ := Octets.at_cons.mp hat
    obtain ⟨-, hrest⟩ := Octets.at_append.mp hrest
    have hnext := ih (fun k hk => hls k (.tail _ hk)) hrest (Nat.lt_of_succ_lt_succ hfuel)
    rw [nameEnd, hhead.getElem?]
    dsimp only
    rw [if_neg hl.ofNat_length_ne_zero, if_neg (not_not.mpr hl.and_c0), hl.toNat_length, hnext,
      Labels.length_encode_cons]
    congr 1
    omega

theorem questionSectionBytes_of_at (hls : ∀ l ∈ ls, Labels.IsLabel l) (hfour : four.length = 4)
    (hat : At msg 12 (Labels.encode ls ++ four)) :
    questionSectionBytes msg = .ok (Labels.encode ls ++ four) := by
  have hend := hat.end_le (append_ne_nil_of_left_ne_nil (Labels.encode_ne_nil ls) four)
  have hlen := Labels.length_lt_length_encode ls
  rw [length_append, hfour] at hend
  have hname := nameEnd_encode hls (Octets.at_append.mp hat).1 (show ls.length < msg.length by omega)
  have htake : (msg.take (12 + (Labels.encode ls).length + 4)).drop 12 = Labels.encode ls ++ four := by
    rw [drop_take, ← hat.take_drop, length_append, hfour]
    congr 1
    omega
  rw [questionSectionBytes, if_neg (by omega), hname]
  refine Eq.trans (if_neg (by omega)) ?_
  rw [htake]

theorem at_of_questionSectionBytes (h : questionSectionBytes msg = .ok first) : At msg 12 first := by
  rw [questionSectionBytes] at h
  split at h
  · cases h
  · obtain ⟨off, -, h⟩ := bind_ok h
    split at h
    · cases h
    · cases h
      rw [drop_take]
      exact take_prefix _ _

end QuestionSection

/-! ### Random case -/

/-- The letters of a label, each in upper case if its bit is set. The index counts the bits in use. -/
def randomizeLabel (bits : Bytes) : (label : Bytes) → (bitIdx : Nat) → Bytes × Nat
  | [], bitIdx => ([], bitIdx)
  | b :: rest, bitIdx =>
    if b < 0x61 ∨ b > 0x7a then
      let (rest', bitIdx') := randomizeLabel bits rest bitIdx
      (b :: rest', bitIdx')
    else
      match bits[bitIdx / 8]? with
      -- the index stays where it is, so no letter changes any more
      | none => (b :: rest, bitIdx)
      | some w =>
        let (rest', bitIdx') := randomizeLabel bits rest (bitIdx + 1)
        ((if w &&& (1 <<< UInt8.ofNat (bitIdx % 8)) ≠ 0 then b - 32 else b) :: rest', bitIdx')

/-- Letters get their case from random bits. -/
def randomizeLabels (bits : Bytes) : (fuel : Nat) → (qname : Bytes) → (bitIdx : Nat) → Bytes
  | 0, qname, _ => qname
  | _ + 1, [], _ => []
  | fuel + 1, l :: rest, bitIdx =>
    if l = 0 then l :: rest
    else if l &&& 0xc0 ≠ 0 then l :: rest
    else if l.toNat > rest.length then l :: rest
    else
      let (label, bitIdx') := randomizeLabel bits (rest.take l.toNat) bitIdx
      l :: label ++ randomizeLabels bits fuel (rest.drop l.toNat) bitIdx'

/-- `crypto/rand` fails or gives as many bytes as are asked for. -/
def randomizeQNameCase (rand : Option (Nat → UInt8)) (qname : Bytes) : Option Bytes :=
  rand.map fun draw => randomizeLabels ((List.range ((qname.length + 7) / 8)).map draw) qname.length qname 0

section Random

variable {bits qname : Bytes} {ls : List Bytes} {fuel : Nat}

@[simp] theorem length_randomizeLabel (bits label : Bytes) (bitIdx : Nat) :
    (randomizeLabel bits label bitIdx).1.length = label.length := by
  induction label generalizing bitIdx with
  | nil => rfl
  | cons b rest ih => grind [randomizeLabel]

theorem randomizeLabels_encode (hls : ∀ l ∈ ls, Labels.IsLabel l) (hfuel : ls.length < fuel) (bitIdx : Nat) :
    ∃ ls', (∀ l ∈ ls', Labels.IsLabel l) ∧ (Labels.encode ls').length = (Labels.encode ls).length ∧
      randomizeLabels bits fuel (Labels.encode ls) bitIdx = Labels.encode ls' := by
  induction ls generalizing fuel bitIdx with
  | nil =>
    obtain ⟨fuel, rfl⟩ := Nat.exists_eq_succ_of_ne_zero (Nat.ne_zero_of_lt hfuel)
    exact ⟨[], forall_mem_nil _, rfl, rfl⟩
  | cons l ls ih =>
    obtain ⟨fuel, rfl⟩ := Nat.exists_eq_succ_of_ne_zero (Nat.ne_zero_of_lt hfuel)
    have hl := hls l (.head _)
    have hlen := length_randomizeLabel bits l bitIdx
    obtain ⟨ls', hls', hsame, hrest⟩ := ih (fun k hk => hls k (.tail _ hk))
      (Nat.lt_of_succ_lt_succ hfuel) (randomizeLabel bits l bitIdx).2
    have hl' : Labels.IsLabel (randomizeLabel bits l bitIdx).1 := by
      rw [Labels.IsLabel, hlen]
      exact hl
    refine ⟨(randomizeLabel bits l bitIdx).1 :: ls', forall_mem_cons.mpr ⟨hl', hls'⟩, ?_, ?_⟩
    · rw [Labels.length_encode_cons, Labels.length_encode_cons, hlen, hsame]
    · rw [Labels.encode, randomizeLabels, if_neg hl.ofNat_length_ne_zero, if_neg (not_not.mpr hl.and_c0),
        hl.toNat_length, if_neg (by simp), take_left, drop_left]
      dsimp only
      rw [hrest, Labels.encode, hlen, cons_append]

theorem randomizeQNameCase_encode {rand : Option (Nat → UInt8)} (hls : ∀ l ∈ ls, Labels.IsLabel l)
    (h : randomizeQNameCase rand (Labels.encode ls) = some qname) :
    ∃ ls', (∀ l ∈ ls', Labels.IsLabel l) ∧ (Labels.encode ls').length = (Labels.encode ls).length ∧
      qname = Labels.encode ls' := by
  obtain ⟨draw, -, hqname⟩ := Option.map_eq_some_iff.mp h
  obtain ⟨ls', hls', hlen, hnew⟩ := randomizeLabels_encode hls (Labels.length_lt_length_encode ls) 0
  exact ⟨ls', hls', hlen, hqname.symm.trans hnew⟩

end Random

/-! ### The exchange -/

/-- What is wrong with a datagram that does not answer the query. -/
inductive Refusal where
  | malformed (e : MessageParseError)
  | wrongID
  | wrongQuestion
  | wrongCase
  deriving DecidableEq

/-- The four ways a datagram can fail to be the response. -/
inductive Flaw where
  | malformed
  | wrongID
  | wrongQuestion
  | wrongCase
  deriving DecidableEq

def Refusal.flaw : Refusal → Flaw
  | .malformed _ => .malformed
  | .wrongID => .wrongID
  | .wrongQuestion => .wrongQuestion
  | .wrongCase => .wrongCase

/-- How many of each flaw are tolerated. -/
def budget : Flaw → Nat
  | .malformed => 16
  | .wrongID => 256
  | .wrongQuestion => 16
  | .wrongCase => 16

inductive ExchangeError where
  | pack (e : WireError)
  | extractQuestion (e : QuestionError)
  | randomness
  | dial
  | write
  | read
  | exhausted (r : Refusal)
  deriving DecidableEq

structure Network where
  rand : Option (Nat → UInt8)
  dials : Bool
  writes : Bool
  datagrams : List Bytes

structure Sent where
  msg : Bytes
  question : Option Bytes
  deriving DecidableEq

end UDPClient

structure UDPClient where
  bufsize : Nat
  use0x20 : Bool

namespace UDPClient

def newUDPClient (bufferSize : Option Nat) (caseRandomization : Option Bool) : UDPClient :=
  ⟨bufferSize.getD 4096, caseRandomization.getD true⟩

def randomizes (c : UDPClient) (q : Message) : Bool :=
  c.use0x20 ∧ q.questions.length > 0 ∧ q.flags.opcode = Opcode.query

def randomized (rand : Option (Nat → UInt8)) (msg : Bytes) : Except ExchangeError Sent := do
  let qs ← (questionSectionBytes msg).mapError .extractQuestion
  match randomizeQNameCase rand ((msg.drop 12).take (qs.length - 4)) with
  | none => .error .randomness
  | some qname =>
    let msg := msg.take 12 ++ qname ++ msg.drop (12 + (qs.length - 4))
    .ok ⟨msg, some ((msg.drop 12).take qs.length)⟩

def prepare (c : UDPClient) (rand : Option (Nat → UInt8)) (q : Message) (msg : Bytes) : Except ExchangeError Sent :=
  if c.randomizes q then randomized rand msg else .ok ⟨msg, none⟩

/-- `Exchange` up to the first read. -/
def send (c : UDPClient) (net : Network) (q : Message) : Except ExchangeError Sent := do
  let msg ← q.pack.mapError .pack
  let sent ← c.prepare net.rand q msg
  if ¬net.dials then .error .dial
  else if ¬net.writes then .error .write
  else .ok sent

def verdict (q : Message) (sent : Sent) (buf : Bytes) : Except Refusal Message :=
  match Message.unpack buf with
  | .error e => .error (.malformed e)
  | .ok resp =>
    if resp.id ≠ q.id then .error .wrongID
    else if ¬questionsMatch q resp then .error .wrongQuestion
    else
      match sent.question with
      | none => .ok resp
      | some question => if questionSectionBytes buf = .ok question then .ok resp else .error .wrongCase

def charge (counts : Flaw → Nat) (r : Refusal) : Except ExchangeError (Flaw → Nat) :=
  if counts r.flaw + 1 ≥ budget r.flaw then .error (.exhausted r)
  else .ok (Function.update counts r.flaw (counts r.flaw + 1))

/-- The loop of `Exchange`. The message comes with the datagram that it was read from. -/
def receive (c : UDPClient) (q : Message) (sent : Sent) :
    (counts : Flaw → Nat) → List Bytes → Except ExchangeError (Bytes × Message)
  | _, [] => .error .read
  | counts, d :: ds =>
    match verdict q sent (d.take c.bufsize) with
    | .ok resp => .ok (d.take c.bufsize, resp)
    | .error r => do
        let counts ← charge counts r
        receive c q sent counts ds

def exchangeFrom (c : UDPClient) (net : Network) (q : Message) : Except ExchangeError (Bytes × Message) := do
  let sent ← c.send net q
  c.receive q sent (fun _ => 0) net.datagrams

/-- Datagrams are read until one is the response. -/
def exchange (c : UDPClient) (net : Network) (q : Message) : Except ExchangeError Message :=
  (c.exchangeFrom net q).map Prod.snd

/-! ### How long it reads -/

/-- The datagrams that may still be refused. -/
def left (counts : Flaw → Nat) : Nat :=
  ([.malformed, .wrongID, .wrongQuestion, .wrongCase].map fun f => budget f - (counts f + 1)).sum

theorem receive_take {c : UDPClient} {q : Message} {sent : Sent} {counts : Flaw → Nat} {n : Nat} (h : left counts < n)
    (ds : List Bytes) : c.receive q sent counts (ds.take n) = c.receive q sent counts ds := by
  induction ds generalizing counts n with
  | nil => rw [take_nil]
  | cons d ds ih =>
    obtain ⟨n, rfl⟩ := Nat.exists_eq_add_one_of_ne_zero (Nat.ne_zero_of_lt h)
    rw [take_succ_cons, receive, receive]
    split
    · rfl
    · next r _ =>
      rw [charge]
      split
      · rfl
      · next hleft =>
        -- the datagram is paid for from one budget
        refine ih ?_
        cases hflaw : r.flaw <;> simp [left, hflaw, budget] at h hleft ⊢ <;> omega

/-- **A flood ends.** Nothing behind the first 301 datagrams is looked at. -/
theorem exchange_reads_take (c : UDPClient) (net : Network) (q : Message) :
    c.exchange { net with datagrams := net.datagrams.take 301 } q = c.exchange net q := by
  have hleft : left (fun _ => 0) < 301 := by decide
  simp only [exchange, exchangeFrom, send, receive_take hleft]

/-! ### The query as it goes out -/

section Send

variable {c : UDPClient} {net : Network} {q : Message} {sent : Sent} {question : Question} {msg : Bytes}
  {rand : Option (Nat → UInt8)}

theorem bytes_question (hraw : question.rawName.length > 0 → question.Spelled) :
    ∃ ls four, (∀ l ∈ ls, Labels.IsLabel l) ∧ four.length = 4 ∧
      question.ops.flatMap PackOp.bytes = Labels.encode ls ++ four := by
  have hfour : (bigEndian 2 question.typ.toNat ++ bigEndian 2 question.class_.toNat).length = 4 := by simp
  by_cases hne : question.rawName.length > 0
  · obtain ⟨ls, hls, hbytes, -⟩ := hraw hne
    refine ⟨ls, _, hls, hfour, ?_⟩
    rw [Question.ops, if_pos hne, hbytes]
    simp [PackOp.bytes]
  by_cases hname : question.name.isValid
  · have hwire := Name.wire_eq_encode hname
    refine ⟨question.name.labels, _, fun l hl => (Name.isNameLabel_of_mem_labels hl).1, hfour, ?_⟩
    simp [Question.ops, hne, PackOp.bytes, Name.appendWire, hname, hwire]
  · refine ⟨[], _, forall_mem_nil _, hfour, ?_⟩
    simp [Question.ops, hne, PackOp.bytes, Name.appendWire, hname, Labels.encode]

theorem pack_opening (h : q.pack = .ok msg) : ∃ tail, msg = q.header ++ (q.questionBytes ++ tail) := by
  grind [Message.pack_parts]

theorem randomized_eq_ok {head four tail : Bytes} {ls : List Bytes} (hhead : head.length = 12)
    (hls : ∀ l ∈ ls, Labels.IsLabel l) (hfour : four.length = 4)
    (h : randomized rand (head ++ (Labels.encode ls ++ (four ++ tail))) = .ok sent) :
    ∃ ls', (∀ l ∈ ls', Labels.IsLabel l) ∧ (Labels.encode ls').length = (Labels.encode ls).length ∧
      sent = ⟨head ++ (Labels.encode ls' ++ (four ++ tail)), some (Labels.encode ls' ++ four)⟩ := by
  have hdrop : ∀ rest, (head ++ rest).drop 12 = rest := fun rest => drop_left' hhead
  have hat : At (head ++ (Labels.encode ls ++ (four ++ tail))) 12 (Labels.encode ls ++ four) :=
    ⟨tail, by rw [hdrop, append_assoc]⟩
  obtain ⟨qs, hqs, h⟩ := bind_ok h
  rw [questionSectionBytes_of_at hls hfour hat] at hqs
  cases hqs
  have hsize : (Labels.encode ls ++ four).length - 4 = (Labels.encode ls).length := by
    rw [length_append, hfour, Nat.add_sub_cancel]
  rw [hsize, hdrop, take_left, ← drop_drop, hdrop, drop_left, take_left' hhead] at h
  split at h
  · cases h
  · rename_i qname hqname
    obtain ⟨ls', hls', hlen, rfl⟩ := randomizeQNameCase_encode hls hqname
    refine ⟨ls', hls', hlen, ?_⟩
    have hquestion : (Labels.encode ls' ++ (four ++ tail)).take (Labels.encode ls ++ four).length =
        Labels.encode ls' ++ four := by
      rw [← append_assoc]
      exact take_left' (by rw [length_append, length_append, hlen])
    rw [← Except.ok.inj h]
    simp only [append_assoc, hdrop, hquestion]

theorem randomized_question (hraw : ∀ question ∈ q.questions, question.rawName.length > 0 → question.Spelled)
    (hne : q.questions ≠ []) (hpack : q.pack = .ok msg) (h : randomized rand msg = .ok sent) :
    ∃ ls four, (∀ l ∈ ls, Labels.IsLabel l) ∧ four.length = 4 ∧ sent.question = some (Labels.encode ls ++ four) ∧
      Labels.encode ls ++ four <+: (sent.msg.drop 12).take q.questionBytes.length := by
  obtain ⟨question, rest, hquestions⟩ := exists_cons_of_ne_nil hne
  obtain ⟨ls, four, hls, hfour, hbytes⟩ := bytes_question (hraw question (by simp [hquestions]))
  obtain ⟨tail, rfl⟩ := pack_opening hpack
  obtain ⟨further, hsection⟩ : ∃ further, q.questionBytes = Labels.encode ls ++ (four ++ further) :=
    ⟨_, by rw [Message.questionBytes, hquestions, flatMap_cons, hbytes, append_assoc]⟩
  rw [hsection, append_assoc, append_assoc] at h
  obtain ⟨ls', hls', hlen, rfl⟩ := randomized_eq_ok q.length_header hls hfour h
  refine ⟨ls', four, hls', hfour, rfl, ?_⟩
  have hsize : q.questionBytes.length = (Labels.encode ls' ++ (four ++ further)).length := by
    rw [hsection]
    simp only [length_append, hlen]
  have hsent : Labels.encode ls' ++ (four ++ (further ++ tail)) = Labels.encode ls' ++ (four ++ further) ++ tail := by
    simp only [append_assoc]
  rw [drop_left' q.length_header, hsize, hsent, take_left]
  exact ⟨further, append_assoc _ _ _⟩

theorem send_cases (h : c.send net q = .ok sent) : ∃ msg, q.pack = .ok msg ∧
    (c.randomizes q = true ∧ randomized net.rand msg = .ok sent ∨ c.randomizes q = false ∧ sent = ⟨msg, none⟩) := by
  obtain ⟨msg, hpack, h⟩ := bind_ok h
  obtain ⟨sent', hsent, h⟩ := bind_ok h
  refine ⟨msg, mapError_eq_ok.mp hpack, ?_⟩
  have hsame : sent' = sent := by
    split at h
    · cases h
    · split at h
      · cases h
      · exact Except.ok.inj h
  subst hsame
  rw [prepare] at hsent
  cases hrandomizes : c.randomizes q with
  | true =>
    rw [hrandomizes, if_pos rfl] at hsent
    exact .inl ⟨rfl, hsent⟩
  | false =>
    rw [hrandomizes, if_neg Bool.false_ne_true] at hsent
    exact .inr ⟨rfl, (Except.ok.inj hsent).symm⟩

end Send

/-! ### Responses and strays -/

section Response

variable (c : UDPClient) (q : Message) (sent : Sent)

def Sent.questionSection : Bytes := (sent.msg.drop 12).take q.questionBytes.length

def Echoes (buf : Bytes) : Prop := c.randomizes q = true → At buf 12 (sent.questionSection q)

instance instDecidableEchoes (buf : Bytes) : Decidable (c.Echoes q sent buf) :=
  inferInstanceAs (Decidable (c.randomizes q = true → sent.questionSection q <+: buf.drop 12))

structure IsResponse (buf : Bytes) (m : Message) : Prop where
  unpack : Message.unpack buf = .ok m
  response : m.flags.response = true
  id : m.id = q.id
  questions : questionsMatch q m = true
  echoes : c.Echoes q sent buf

def flaw (buf : Bytes) : Option Flaw :=
  match Message.unpack buf with
  | .error _ => some .malformed
  | .ok m =>
    if m.id ≠ q.id then some .wrongID
    else if ¬questionsMatch q m then some .wrongQuestion
    else if ¬c.Echoes q sent buf then some .wrongCase
    else none

def flaws (f : Flaw) (ds : List Bytes) : Nat := ds.countP fun d => c.flaw q sent (d.take c.bufsize) = some f

/-- It has the ID and the questions of the query, but its QR bit is clear, or a further question is spelled otherwise.
-/
structure Stray (buf : Bytes) (m : Message) : Prop where
  unpack : Message.unpack buf = .ok m
  id : m.id = q.id
  questions : questionsMatch q m = true
  first : ∀ first, sent.question = some first → At buf 12 first
  stray : m.flags.response = false ∨ ¬c.Echoes q sent buf

/-- A call returns the first response only, unless a budget is used up before it. -/
structure Conforms (net : Network) : Prop where
  sound : ∀ buf m, c.exchangeFrom net q = .ok (buf, m) →
    ∃ sent, c.send net q = .ok sent ∧ (∃ d ∈ net.datagrams, buf = d.take c.bufsize) ∧ c.IsResponse q sent buf m
  complete : ∀ sent before d behind m, c.send net q = .ok sent → net.datagrams = before ++ d :: behind →
    c.IsResponse q sent (d.take c.bufsize) m → (∀ x ∈ before, ∀ m', ¬c.IsResponse q sent (x.take c.bufsize) m') →
    (∀ f, c.flaws q sent f before < budget f) → c.exchangeFrom net q = .ok (d.take c.bufsize, m)

end Response

section Verdict

variable {c : UDPClient} {net : Network} {q : Message} {sent : Sent} {buf : Bytes} {m : Message} {r : Refusal}

theorem verdict_eq_ok : verdict q sent buf = .ok m ↔ Message.unpack buf = .ok m ∧ m.id = q.id ∧
    questionsMatch q m = true ∧ ∀ first, sent.question = some first → questionSectionBytes buf = .ok first := by
  grind [verdict]

theorem isSome_question (h : c.send net q = .ok sent) : sent.question.isSome = c.randomizes q := by
  obtain ⟨msg, hpack, ⟨hrandomizes, h⟩ | ⟨hrandomizes, rfl⟩⟩ := send_cases h
  · obtain ⟨qs, -, h⟩ := bind_ok h
    split at h
    · cases h
    · rw [← Except.ok.inj h, hrandomizes]
      rfl
  · rw [hrandomizes]
    rfl

variable (hraw : ∀ question ∈ q.questions, question.rawName.length > 0 → question.Spelled)
  (hsend : c.send net q = .ok sent)

include hraw hsend

theorem question_sent {first : Bytes} (hfirst : sent.question = some first) :
    first <+: sent.questionSection q ∧ ∀ buf, questionSectionBytes buf = .ok first ↔ At buf 12 first := by
  obtain ⟨msg, hpack, ⟨hrandomizes, h⟩ | ⟨-, rfl⟩⟩ := send_cases hsend
  · have hne : q.questions ≠ [] := by
      have hpositive : q.questions.length > 0 := (of_decide_eq_true hrandomizes).2.1
      exact length_pos_iff.mp hpositive
    obtain ⟨ls, four, hls, hfour, hquestion, hbegins⟩ := randomized_question hraw hne hpack h
    cases hquestion.symm.trans hfirst
    exact ⟨hbegins, fun buf => ⟨at_of_questionSectionBytes, questionSectionBytes_of_at hls hfour⟩⟩
  · cases hfirst

theorem accepted_iff : verdict q sent buf = .ok m ↔ Message.unpack buf = .ok m ∧ m.id = q.id ∧
    questionsMatch q m = true ∧ ∀ first, sent.question = some first → At buf 12 first := by
  rw [verdict_eq_ok]
  refine and_congr_right fun _ => and_congr_right fun _ => and_congr_right fun _ => ?_
  refine forall_congr' fun first => forall_congr' fun hfirst => ?_
  exact (question_sent hraw hsend hfirst).2 buf

theorem first_of_echoes (h : c.Echoes q sent buf) : ∀ first, sent.question = some first → At buf 12 first := by
  intro first hfirst
  have hrandomizes : c.randomizes q = true := by
    rw [← isSome_question hsend, hfirst]
    rfl
  exact (question_sent hraw hsend hfirst).1.trans (h hrandomizes)

theorem IsResponse.accepted (h : c.IsResponse q sent buf m) : verdict q sent buf = .ok m :=
  (accepted_iff hraw hsend).mpr ⟨h.unpack, h.id, h.questions, first_of_echoes hraw hsend h.echoes⟩

theorem Stray.accepted (h : c.Stray q sent buf m) : verdict q sent buf = .ok m :=
  (accepted_iff hraw hsend).mpr ⟨h.unpack, h.id, h.questions, h.first⟩

theorem response_or_stray (h : verdict q sent buf = .ok m) : c.IsResponse q sent buf m ∨ c.Stray q sent buf m := by
  obtain ⟨hunpack, hid, hquestions, hfirst⟩ := (accepted_iff hraw hsend).mp h
  by_cases hechoes : c.Echoes q sent buf
  · cases hresponse : m.flags.response with
    | true => exact .inl ⟨hunpack, hresponse, hid, hquestions, hechoes⟩
    | false => exact .inr ⟨hunpack, hid, hquestions, hfirst, .inl hresponse⟩
  · exact .inr ⟨hunpack, hid, hquestions, hfirst, .inr hechoes⟩

theorem flaw_of_refused (h : verdict q sent buf = .error r) : c.flaw q sent buf = some r.flaw := by
  have hfirst : c.Echoes q sent buf → ∀ first, sent.question = some first → At buf 12 first :=
    first_of_echoes hraw hsend
  have hquestion : ∀ first, sent.question = some first → (questionSectionBytes buf = .ok first ↔ At buf 12 first) :=
    fun first hsome => (question_sent hraw hsend hsome).2 buf
  unfold verdict at h
  unfold flaw
  cases hunpack : Message.unpack buf with
  | error e => grind [Refusal.flaw]
  | ok resp => grind [Refusal.flaw]

end Verdict

/-! ### The loop -/

section Loop

variable {c : UDPClient} {net : Network} {q : Message} {sent : Sent} {buf : Bytes} {m m' : Message}
  {ds before : List Bytes} {counts : Flaw → Nat}

theorem Stray.not_response (h : c.Stray q sent buf m) : ¬c.IsResponse q sent buf m' := by
  intro hresponse
  cases h.unpack.symm.trans hresponse.unpack
  rcases h.stray with hquery | hother
  · exact absurd (hquery.symm.trans hresponse.response) Bool.false_ne_true
  · exact hother hresponse.echoes

def Returns (c : UDPClient) (q : Message) (sent : Sent) (counts : Flaw → Nat) (ds : List Bytes) (buf : Bytes)
    (m : Message) : Prop :=
  ∃ before d behind, ds = before ++ d :: behind ∧
    (∀ x ∈ before, ∃ r, verdict q sent (x.take c.bufsize) = .error r) ∧
    (∀ f, counts f + c.flaws q sent f before < budget f) ∧ buf = d.take c.bufsize ∧ verdict q sent buf = .ok m

theorem returns_of_accepted {d : Bytes} {resp : Message} (hcounts : ∀ f, counts f < budget f)
    (h : verdict q sent (d.take c.bufsize) = .ok resp) :
    c.Returns q sent counts (d :: ds) buf m ↔ d.take c.bufsize = buf ∧ resp = m := by
  constructor
  · rintro ⟨before, d', behind, hds, hrefused, -, rfl, haccepted⟩
    cases before with
    | nil =>
      cases hds
      exact ⟨rfl, Except.ok.inj (h.symm.trans haccepted)⟩
    | cons x before =>
      cases hds
      obtain ⟨r, hr⟩ := hrefused d (.head _)
      cases h.symm.trans hr
  · rintro ⟨rfl, rfl⟩
    exact ⟨[], d, ds, rfl, forall_mem_nil _, hcounts, rfl, h⟩

theorem flaws_cons {d : Bytes} {f' : Flaw} (h : c.flaw q sent (d.take c.bufsize) = some f') (f : Flaw) :
    c.flaws q sent f (d :: ds) = c.flaws q sent f ds + if f' = f then 1 else 0 := by
  rw [flaws, countP_cons, h]
  simp [flaws]

theorem flaws_le {behind : List Bytes} (f : Flaw) : c.flaws q sent f before ≤ c.flaws q sent f (before ++ behind) := by
  rw [flaws, flaws, countP_append]
  exact Nat.le_add_right _ _

variable (hraw : ∀ question ∈ q.questions, question.rawName.length > 0 → question.Spelled)
  (hsend : c.send net q = .ok sent)

include hraw hsend

theorem returns_of_refused {d : Bytes} {r : Refusal} (h : verdict q sent (d.take c.bufsize) = .error r) :
    c.Returns q sent counts (d :: ds) buf m ↔
      c.Returns q sent (Function.update counts r.flaw (counts r.flaw + 1)) ds buf m := by
  have hflaw := flaw_of_refused hraw hsend h
  have hcharged : ∀ f before, counts f + c.flaws q sent f (d :: before) =
      Function.update counts r.flaw (counts r.flaw + 1) f + c.flaws q sent f before := by
    intro f before
    rw [flaws_cons hflaw, Function.update_apply]
    grind
  constructor
  · rintro ⟨before, d', behind, hds, hrefused, hbudget, rfl, haccepted⟩
    cases before with
    | nil =>
      cases hds
      cases h.symm.trans haccepted
    | cons x before =>
      obtain ⟨rfl, hrest⟩ := List.cons.inj hds
      exact ⟨before, d', behind, hrest, (forall_mem_cons.mp hrefused).2,
        fun f => hcharged f before ▸ hbudget f, rfl, haccepted⟩
  · rintro ⟨before, d', behind, rfl, hrefused, hbudget, rfl, haccepted⟩
    exact ⟨d :: before, d', behind, rfl, forall_mem_cons.mpr ⟨⟨r, h⟩, hrefused⟩,
      fun f => (hcharged f before).symm ▸ hbudget f, rfl, haccepted⟩

/-- **What the loop returns.** By induction on the datagrams; what has been counted is below the budgets. -/
theorem receive_eq_ok (hcounts : ∀ f, counts f < budget f) :
    c.receive q sent counts ds = .ok (buf, m) ↔ c.Returns q sent counts ds buf m := by
  induction ds generalizing counts with
  | nil => simp [receive, Returns]
  | cons d ds ih =>
    rw [receive]
    cases hverdict : verdict q sent (d.take c.bufsize) with
    | ok resp =>
      rw [returns_of_accepted hcounts hverdict]
      simp
    | error r =>
      rw [returns_of_refused hraw hsend hverdict]
      dsimp only
      by_cases hspent : counts r.flaw + 1 ≥ budget r.flaw
      · rw [charge, if_pos hspent]
        constructor
        · intro h
          cases h
        · rintro ⟨before, -, -, -, -, hbudget, -⟩
          have hover := hbudget r.flaw
          rw [Function.update_self] at hover
          omega
      · rw [charge, if_neg hspent]
        refine ih fun f => ?_
        rw [Function.update_apply]
        split
        · rename_i heq
          rw [heq]
          omega
        · exact hcounts f

end Loop

/-! ### Acceptance -/

section Accept

variable {c : UDPClient} {net : Network} {q : Message} {sent : Sent} {buf : Bytes} {m : Message}

theorem exchangeFrom_eq_ok (hraw : ∀ question ∈ q.questions, question.rawName.length > 0 → question.Spelled) :
    c.exchangeFrom net q = .ok (buf, m) ↔
      ∃ sent, c.send net q = .ok sent ∧ c.Returns q sent (fun _ => 0) net.datagrams buf m := by
  have hbudget : ∀ f, 0 < budget f := by
    intro f
    cases f <;> decide
  rw [exchangeFrom]
  cases hsend : c.send net q with
  | error e => simp [bind, Except.bind]
  | ok sent =>
    have hreceive : c.receive q sent (fun _ => 0) net.datagrams = .ok (buf, m) ↔ _ := receive_eq_ok hraw hsend hbudget
    simpa [bind, Except.bind] using hreceive

theorem exists_first (before behind : List Bytes) {d : Bytes} (h : verdict q sent (d.take c.bufsize) = .ok m) :
    ∃ as x bs m', before ++ d :: behind = as ++ x :: bs ∧
      (∀ y ∈ as, ∃ r, verdict q sent (y.take c.bufsize) = .error r) ∧ verdict q sent (x.take c.bufsize) = .ok m' ∧
      as <+: before ∧ x ∈ before ++ [d] := by
  induction before with
  | nil => exact ⟨[], d, behind, m, rfl, forall_mem_nil _, h, prefix_rfl, mem_singleton_self d⟩
  | cons y before ih =>
    cases hverdict : verdict q sent (y.take c.bufsize) with
    | ok m' =>
      exact ⟨[], y, before ++ d :: behind, m', rfl, forall_mem_nil _, hverdict, nil_prefix,
        (.head _)⟩
    | error r =>
      obtain ⟨as, x, bs, m', hsplit, hrefused, haccepted, hbegins, hmem⟩ := ih
      refine ⟨y :: as, x, bs, m', by rw [cons_append, hsplit, cons_append],
        forall_mem_cons.mpr ⟨⟨r, hverdict⟩, hrefused⟩, haccepted, ?_, .tail _ hmem⟩
      exact (prefix_append_right_inj [y]).mpr hbegins

/-- No stray comes before the first response while the budgets last. -/
def Undisturbed (c : UDPClient) (net : Network) (q : Message) : Prop :=
  ∀ sent before d behind m, c.send net q = .ok sent → net.datagrams = before ++ d :: behind →
    c.Stray q sent (d.take c.bufsize) m →
    (∃ x ∈ before, ∃ m', c.IsResponse q sent (x.take c.bufsize) m') ∨ ∃ f, budget f ≤ c.flaws q sent f before

theorem undisturbed_of_refused {refused behind : List Bytes} {d : Bytes}
    (hraw : ∀ question ∈ q.questions, question.rawName.length > 0 → question.Spelled) (hsend : c.send net q = .ok sent)
    (hds : net.datagrams = refused ++ d :: behind)
    (hrefused : ∀ x ∈ refused, ∃ r, verdict q sent (x.take c.bufsize) = .error r)
    (hresponse : c.IsResponse q sent (d.take c.bufsize) m) : c.Undisturbed net q := by
  intro sent' before x behind' m' hsend' hds' hstray
  cases hsend.symm.trans hsend'
  have hx : x ∉ refused := by
    intro hmem
    obtain ⟨r, hr⟩ := hrefused x hmem
    cases hr.symm.trans (hstray.accepted hraw hsend)
  have hne : x ≠ d := by
    rintro rfl
    exact hstray.not_response hresponse
  -- so the stray comes behind the response
  refine .inl ⟨d, ?_, m, hresponse⟩
  rcases append_eq_append_iff.mp (hds.symm.trans hds') with ⟨ys, rfl, hys⟩ | ⟨ys, rfl, hys⟩
  · cases ys with
    | nil => exact absurd (List.cons.inj hys).1.symm hne
    | cons y ys => exact mem_append_right _ ((List.cons.inj hys).1 ▸ .head _)
  · cases ys with
    | nil => exact absurd (List.cons.inj hys).1 hne
    | cons y ys => exact absurd (mem_append_right _ ((List.cons.inj hys).1 ▸ .head _)) hx

/-- **Acceptance.** A call returns just the first response exactly if no stray gets in its way. -/
theorem conforms_iff_undisturbed (c : UDPClient) (net : Network) (q : Message)
    (hraw : ∀ question ∈ q.questions, question.rawName.length > 0 → question.Spelled) :
    c.Conforms q net ↔ c.Undisturbed net q := by
  constructor
  · intro hconforms sent before d behind m hsend hds hstray
    by_contra hquiet
    obtain ⟨hnone, hlast⟩ := not_or.mp hquiet
    obtain ⟨as, x, bs, m', hsplit, hrefused, haccepted, ⟨rest, hbegins⟩, hmem⟩ :=
      exists_first before behind (hstray.accepted hraw hsend)
    -- the call returns the first datagram that is not refused, so that is a response
    have hbudget : ∀ f, 0 + c.flaws q sent f as < budget f := by grind [flaws_le]
    obtain ⟨sent', hsend', -, hresponse⟩ := hconforms.sound _ _ ((exchangeFrom_eq_ok hraw).mpr
      ⟨sent, hsend, as, x, bs, hds.trans hsplit, hrefused, hbudget, rfl, haccepted⟩)
    cases hsend.symm.trans hsend'
    rcases mem_append.mp hmem with hbefore | hlast
    · exact hnone ⟨x, hbefore, m', hresponse⟩
    · obtain rfl := mem_singleton.mp hlast
      exact hstray.not_response hresponse
  · intro hundisturbed
    refine ⟨?_, ?_⟩
    · intro buf m hexchange
      obtain ⟨sent, hsend, before, d, behind, hds, hrefused, hbudget, rfl, haccepted⟩ :=
        (exchangeFrom_eq_ok hraw).mp hexchange
      refine ⟨sent, hsend, ⟨d, by simp [hds], rfl⟩, ?_⟩
      rcases response_or_stray hraw hsend haccepted with hresponse | hstray
      · exact hresponse
      · exfalso
        rcases hundisturbed sent before d behind m hsend hds hstray with ⟨x, hx, m', hresponse⟩ | ⟨f, hspent⟩
        · obtain ⟨r, hr⟩ := hrefused x hx
          cases hr.symm.trans (hresponse.accepted hraw hsend)
        · have hlast := hbudget f
          omega
    · intro sent before d behind m hsend hds hresponse hfirst hbudget
      refine (exchangeFrom_eq_ok hraw).mpr ⟨sent, hsend, before, d, behind, hds, ?_, by simpa using hbudget, rfl,
        hresponse.accepted hraw hsend⟩
      intro x hx
      cases hverdict : verdict q sent (x.take c.bufsize) with
      | error r => exact ⟨r, rfl⟩
      | ok m' =>
        exfalso
        rcases response_or_stray hraw hsend hverdict with hearlier | hstray
        · exact hfirst x hx m' hearlier
        obtain ⟨as, bs, rfl⟩ := append_of_mem hx
        rw [append_assoc, cons_append] at hds
        rcases hundisturbed sent as x _ m' hsend hds hstray with ⟨y, hy, m'', hearlier⟩ | ⟨f, hspent⟩
        · exact hfirst y (mem_append_left _ hy) m'' hearlier
        · have hlast := hbudget f
          have hle := @flaws_le c q sent as (x :: bs) f
          omega

end Accept

def sampleNetwork (ds : List Bytes) : Network := ⟨some fun _ => 0xff, true, true, ds⟩

/-- A message of ID 7 about `k.`, written with an upper-case letter. -/
def kMessage (flags : Flags) : Message := ⟨7, flags, [⟨Name.Short.k, 1, 1, [1, 0x4b, 0]⟩], [], [], [], none⟩

def kEcho : Bytes := [0, 7, 1, 0, 0, 1, 0, 0, 0, 0, 0, 0, 1, 0x4b, 0, 0, 1, 0, 1]

def kResponse : Bytes := [0, 7, 0x81, 0, 0, 1, 0, 0, 0, 0, 0, 0, 1, 0x4b, 0, 0, 1, 0, 1]

/-- A short datagram, one of another ID and one in lower case. -/
def kRefused : List Bytes :=
  [[0, 7], [0, 8, 0x81, 0, 0, 0, 0, 0, 0, 0, 0, 0], [0, 7, 0x81, 0, 0, 1, 0, 0, 0, 0, 0, 0, 1, 0x6b, 0, 0, 1, 0, 1]]

/-- Three datagrams are refused, and the query itself comes back behind the response. -/
theorem conforms_iff_undisturbed_k :
    (newUDPClient none none).Conforms (kMessage Flags.rd) (sampleNetwork (kRefused ++ kResponse :: [kEcho])) := by
  have hraw : ∀ question ∈ (kMessage Flags.rd).questions, question.rawName.length > 0 → question.Spelled := by
    intro question hmem _
    obtain rfl := mem_singleton.mp hmem
    exact ⟨[[0x4b]], by decide, rfl, rfl⟩
  have hsend : (newUDPClient none none).send (sampleNetwork (kRefused ++ kResponse :: [kEcho])) (kMessage Flags.rd) =
      .ok ⟨kEcho, some (kEcho.drop 12)⟩ := by decide +kernel
  refine (conforms_iff_undisturbed _ _ _ hraw).mpr (undisturbed_of_refused hraw hsend rfl ?_
    (m := kMessage (Flags.rd ||| Flags.qr)) ⟨by decide +kernel, by decide, rfl, by decide +kernel, by decide +kernel⟩)
  have hrefused : ∀ x ∈ kRefused,
      (verdict (kMessage Flags.rd) ⟨kEcho, some (kEcho.drop 12)⟩ (x.take 4096)).isOk = false := by
    decide +kernel
  intro x hx
  cases hverdict : verdict (kMessage Flags.rd) ⟨kEcho, some (kEcho.drop 12)⟩ (x.take 4096) with
  | error r => exact ⟨r, hverdict⟩
  | ok m => cases (congrArg Except.isOk hverdict).symm.trans (hrefused x hx)

/-! ### A query that comes back -/

def kQuery : Message := ⟨7, Flags.rd, [newQuestion Name.Short.k 1], [], [], [], none⟩

/-- A datagram that throws the query back is taken for the answer. -/
theorem echo_returned :
    (newUDPClient none none).exchange (sampleNetwork [kEcho]) kQuery = .ok (kMessage Flags.rd) ∧
    (kMessage Flags.rd).flags.response = false ∧ ¬(newUDPClient none none).Conforms kQuery (sampleNetwork [kEcho]) := by
  have hexchange : (newUDPClient none none).exchangeFrom (sampleNetwork [kEcho]) kQuery =
      .ok (kEcho, kMessage Flags.rd) := by decide +kernel
  refine ⟨by rw [exchange, hexchange]; rfl, by decide, fun hconforms => ?_⟩
  obtain ⟨sent, -, -, hresponse⟩ := hconforms.sound _ _ hexchange
  exact absurd hresponse.response (by decide)

end UDPClient

end Acidns
