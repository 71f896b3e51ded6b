import Acidns.Wire.RData

/-!
# Questions and records

`question.go` and `record.go`. A question is echoed with the bytes it came with, so its name may be
spelled in letters of either case. A record writes its rdata behind a placeholder for the length and
patches the length in afterwards; the packer never looks at bytes it has written, so the patched
record is the one that would have been packed had the length been known.
-/

namespace Acidns

open Parser Decoder List
open Octets (At bigEndian)

def invalidMessage (text : String) : WireError := ⟨.invalidMessage, text⟩

/-! ### A length patched in -/

/-- Overwrite the two bytes at `at_` with a 16-bit number. -/
def Packer.patch16 (p : Packer) (at_ : Nat) (v : Nat) : Packer :=
  { p with buf := (p.buf.set at_ (UInt8.ofNat (v / 256))).set (at_ + 1) (UInt8.ofNat v) }

/-- Pack `head`, a 16-bit length and `body`, where the length is that of the body. -/
def packFramed (tooLarge : WireError) (p : Packer) (head body : List PackOp) : Except WireError Packer :=
  let p := p.run head
  let rdlenAt := p.len
  let p := p.uint16 0
  let start := p.len
  let p := p.run body
  let rdlen := p.len - start
  if rdlen > 0xffff then .error tooLarge else .ok (p.patch16 rdlenAt rdlen)

/-- The calls `head`, a length and `body` have left their data in `msg`, and the length is right. -/
def Framed (msg : Bytes) (head body : List PackOp) (off : Nat) (hops : List Nat) (off' : Nat) : Prop :=
  ∃ rdlen : UInt16, ∃ mid front back, hops = front ++ back ∧
    Laid msg off (head ++ [.uint16 rdlen]) front mid ∧ Laid msg mid body back off' ∧
    off' = mid + rdlen.toNat

section Framed

variable {p q : Packer} {lay : Layout} {head body : List PackOp} {tooLarge : WireError}

theorem Packer.run_append (p : Packer) (ops ops' : List PackOp) : p.run (ops ++ ops') = (p.run ops).run ops' :=
  foldl_append

theorem Layout.run_append (lay : Layout) (ops ops' : List PackOp) :
    lay.run (ops ++ ops') =
      (((lay.run ops).1.run ops').1, (lay.run ops).2 ++ ((lay.run ops).1.run ops').2) := by
  induction ops generalizing lay with
  | nil => rfl
  | cons op ops ih => grind [Layout.run]

theorem Layout.run_plain {lay : Layout} {ops : List PackOp} (hops : ∀ op ∈ ops, op.compressed = none) :
    (lay.run ops).2 = [] := by
  induction ops generalizing lay with
  | nil => rfl
  | cons op ops ih =>
    obtain ⟨hop, hops⟩ := forall_mem_cons.mp hops
    simp only [Layout.run, hop]
    exact ih hops

theorem Layout.run_uint16 (lay : Layout) (ops : List PackOp) (v : UInt16) :
    lay.run (ops ++ [.uint16 v]) = lay.run (ops ++ [.uint16 0]) := by
  simp [run_append, run, PackOp.compressed, PackOp.bytes]

theorem Packer.patch16_append (front back : Bytes) (comp : List (Bytes × Nat)) (old new : Nat) :
    (⟨front ++ bigEndian 2 old ++ back, comp⟩ : Packer).patch16 front.length new =
      ⟨front ++ bigEndian 2 new ++ back, comp⟩ := by
  simp [Packer.patch16, bigEndian]

theorem packFramed_eq (h : packFramed tooLarge p head body = .ok q) :
    ∃ rdlen : UInt16, q = (p.run (head ++ [.uint16 rdlen])).run body ∧
      q.len = (p.run (head ++ [.uint16 rdlen])).len + rdlen.toNat := by
  have hhead : ∀ v, p.run (head ++ [.uint16 v]) = (p.run head).uint16 v := fun v => by
    rw [Packer.run_append]
    rfl
  simp only [packFramed] at h
  split at h
  · cases h
  · rename_i hmax
    cases h
    obtain ⟨rdlen, hrdlen⟩ :
      ∃ n, (((p.run head).uint16 0).run body).len - ((p.run head).uint16 0).len = n := ⟨_, rfl⟩
    rw [hrdlen] at hmax ⊢
    have hword : (UInt16.ofNat rdlen).toNat = rdlen := toNat_ofNat16 (by omega)
    obtain ⟨out, comp, hzero, hknown⟩ := @Packer.run_congr ((p.run head).uint16 0) body
      ((p.run head).uint16 (UInt16.ofNat rdlen)) (by simp [Packer.uint16, Packer.raw]) rfl
    have hout : out.length = rdlen := by
      rw [← hrdlen, hzero, Packer.len, Packer.len, length_append, Nat.add_sub_cancel_left]
    have hpatch : (((p.run head).uint16 0).run body).patch16 (p.run head).len rdlen =
        ((p.run head).uint16 (UInt16.ofNat rdlen)).run body := by
      rw [hzero, hknown]
      simp only [Packer.uint16, Packer.raw, hword]
      exact Packer.patch16_append _ _ _ _ _
    refine ⟨UInt16.ofNat rdlen, by rw [hhead, hpatch], ?_⟩
    rw [hpatch, hhead, hknown, hword, ← hout, Packer.len, length_append]
    rfl

theorem packFramed_spec (htracks : Tracks p lay) (h : packFramed tooLarge p head body = .ok q) :
    p.buf <+: q.buf ∧ Tracks q (lay.run (head ++ [.uint16 0] ++ body)).1 ∧
      ∀ msg, q.buf <+: msg →
        Framed msg head body p.buf.length (lay.run (head ++ [.uint16 0] ++ body)).2 q.buf.length := by
  obtain ⟨rdlen, hq, hlen⟩ := packFramed_eq h
  obtain ⟨hgrow, htracks', hlaid⟩ := @laid_run _ _ (head ++ [.uint16 rdlen]) htracks
  obtain ⟨hgrow', htracks'', hlaid'⟩ := @laid_run _ _ body htracks'
  rw [Layout.run_append, ← Layout.run_uint16 lay head rdlen, hq]
  refine ⟨hgrow.trans hgrow', htracks'', fun msg hmsg => ?_⟩
  refine ⟨rdlen, (p.run (head ++ [.uint16 rdlen])).buf.length, _, _, rfl, hlaid msg (hgrow'.trans hmsg),
    hlaid' msg hmsg, ?_⟩
  rw [hq] at hlen
  exact hlen

end Framed

/-! ### Questions -/

/-- A question, with the spelling of its name as received. -/
structure Question where
  name : Name
  typ : RRType
  class_ : RRClass
  /-- The bytes of the name as they arrived; empty when the question was not read from a message. -/
  rawName : Bytes
  deriving DecidableEq

/-- A question of class IN. -/
def newQuestion (name : Name) (t : RRType) : Question := ⟨name, t, RRClass.classIN, []⟩

/-- The received spelling goes back out, so that the case of letters survives. -/
def Question.ops (q : Question) : List PackOp :=
  [if q.rawName.length > 0 then .raw q.rawName else .nameUncompressed q.name, .uint16 q.typ, .uint16 q.class_]

/-- A pointer stands where a label should begin. -/
def pointerAmongLabels : (fuel : Nat) → Bytes → Bool
  | 0, _ => false
  | _ + 1, [] => false
  | fuel + 1, b :: rest =>
    if b &&& 0xc0 = 0xc0 then true
    else if b = 0 then false
    else pointerAmongLabels fuel (rest.drop b.toNat)

/-- The spelling of the name is kept; one with a pointer is refused. -/
def unpackQuestion : Decoder Question := do
  let msg ← message
  let start ← offset
  let n ← name
  let end_ ← offset
  let raw := if end_ > start ∧ end_ ≤ msg.length then (msg.drop start).take (end_ - start) else []
  failIf (pointerAmongLabels raw.length raw) (invalidMessage "compression pointer in question section")
  let t ← uint16
  let c ← uint16
  pure ⟨n, t, c, raw⟩

namespace Question

/-- The question as the other side sees it: the name in canonical spelling if it has none. -/
def sent (q : Question) : Question :=
  if q.rawName.length > 0 then q else { q with rawName := q.name.appendWire [] }

/-- The kept spelling is the name up to case. -/
def Spelled (q : Question) : Prop :=
  ∃ ls, (∀ l ∈ ls, Labels.IsLabel l) ∧ q.rawName = Labels.encode ls ∧
    q.name.wire = Labels.encode (ls.map foldLabel)

end Question

section Question

variable {maxHops off off' : Nat} {msg : Bytes} {hops : List Nat} {c : Unpacker} {q : Question}

variable {ls : List Bytes} {raw : Bytes}

theorem pointerAmongLabels_encode (hls : ∀ l ∈ ls, Labels.IsLabel l) (fuel : Nat) :
    pointerAmongLabels fuel (Labels.encode ls) = false := by
  induction ls generalizing fuel with
  | nil =>
    cases fuel with
    | zero => rfl
    | succ fuel => simp [Labels.encode, pointerAmongLabels]
  | cons l ls ih =>
    cases fuel with
    | zero => rfl
    | succ fuel =>
      have hl := hls l (.head _)
      have htop : ¬UInt8.ofNat l.length &&& 0xc0 = 0xc0 := by
        rw [hl.and_c0]
        decide
      rw [Labels.encode, pointerAmongLabels, if_neg htop, if_neg hl.ofNat_length_ne_zero,
        hl.toNat_length, drop_left]
      exact ih (fun k hk => hls k (.tail _ hk)) fuel

theorem pointerAmongLabels_reference {front : List Bytes} {target fuel : Nat}
    (hfront : ∀ l ∈ front, Labels.IsLabel l) (htarget : target < 2 ^ 14) (hfuel : front.length < fuel) :
    pointerAmongLabels fuel (Labels.body front ++ Labels.reference target) = true := by
  obtain ⟨fuel, rfl⟩ := Nat.exists_eq_succ_of_ne_zero (Nat.ne_zero_of_lt hfuel)
  induction front generalizing fuel with
  | nil =>
    have htop : (0xc0 ||| UInt8.ofNat (target / 256)) &&& 0xc0 = 0xc0 := by
      rw [Labels.and_c0_eq_c0, Labels.toNat_reference_head (by omega)]
      omega
    simp [Labels.body, Labels.reference, pointerAmongLabels, htop]
  | cons l front ih =>
    have hl := hfront l (.head _)
    have htop : ¬UInt8.ofNat l.length &&& 0xc0 = 0xc0 := by
      rw [hl.and_c0]
      decide
    obtain ⟨fuel, rfl⟩ := Nat.exists_eq_succ_of_ne_zero (show fuel ≠ 0 by simp at hfuel; omega)
    rw [Labels.body_cons, append_assoc, cons_append, pointerAmongLabels, if_neg htop,
      if_neg hl.ofNat_length_ne_zero, hl.toNat_length, drop_left]
    exact ih (fun k hk => hfront k (.tail _ hk)) fuel (by simpa using hfuel)

theorem reads_unpackQuestion_of_spelled (hls : ∀ l ∈ ls, Labels.IsLabel l)
    (hraw : raw = Labels.encode ls) (hname : q.name.wire = Labels.encode (ls.map foldLabel))
    (h : Laid msg off [.raw raw, .uint16 q.typ, .uint16 q.class_] hops off') :
    unpackQuestion.Reads maxHops msg off { q with rawName := raw } off' := by
  simp only [laid_raw, laid_uint16, laid_nil] at h
  obtain ⟨hat, ht, hc, -, rfl⟩ := h
  subst hraw
  have hspells := Labels.spells_encode hls hat
  have hpos := length_pos_iff.mpr (Labels.encode_ne_nil ls)
  have hend := hat.end_le (Labels.encode_ne_nil ls)
  have hdecode : name.Reads maxHops msg off q.name (off + (Labels.encode ls).length) :=
    .bind reads_message <| .bind reads_offset <| .bind reads_environment <|
      .bind (reads_ofExcept (Name.decodeWire_of_spells_fold hname hspells (Nat.zero_le _))) <|
      .bind reads_setOffset (reads_pure _)
  refine .bind reads_message <| .bind reads_offset <| .bind hdecode <| .bind reads_offset ?_
  rw [if_pos ⟨by omega, hend⟩, Nat.add_sub_cancel_left, hat.take_drop]
  exact .bind (reads_failIf (by simp [pointerAmongLabels_encode hls])) <|
    .bind (reads_uint16 ht) <| .bind (reads_uint16 hc) (reads_pure _)

section

variable (hname : q.name.isValid) (hq : q.rawName.length > 0 → q.Spelled) (h : Laid msg off q.ops hops off')

include hname hq h

theorem Question.laid_spelled : ∃ ls, (∀ l ∈ ls, Labels.IsLabel l) ∧ q.sent.rawName = Labels.encode ls ∧
      q.name.wire = Labels.encode (ls.map foldLabel) ∧
      Laid msg off [.raw q.sent.rawName, .uint16 q.typ, .uint16 q.class_] hops off' := by
  by_cases hraw : q.rawName.length > 0
  · obtain ⟨ls, hls, hbytes, hwire⟩ := hq hraw
    rw [Question.ops, if_pos hraw] at h
    rw [Question.sent, if_pos hraw]
    exact ⟨ls, hls, hbytes, hwire, h⟩
  · have hlabels : ∀ l ∈ q.name.labels, IsNameLabel l := fun l hl => Name.isNameLabel_of_mem_labels hl
    rw [Question.ops, if_neg hraw] at h
    rw [Question.sent, if_neg hraw]
    refine ⟨q.name.labels, fun l hl => (hlabels l hl).1, q.name.appendWire_nil, ?_, laid_raw.mpr ((laid_plain rfl).mp h)⟩
    rw [map_foldLabel_eq hlabels, Name.wire_eq_encode hname]

theorem reads_unpackQuestion : unpackQuestion.Reads maxHops msg off q.sent off' := by
  obtain ⟨ls, hls, hraw, hwire, hlaid⟩ := Question.laid_spelled hname hq h
  have hsent : q.sent = { q with rawName := q.sent.rawName } := by
    rw [Question.sent]
    split <;> rfl
  rw [hsent]
  exact reads_unpackQuestion_of_spelled hls hraw hwire hlaid

theorem Question.decodeWire_of_laid :
    ∃ next, decodeWire maxHops msg off = .ok (q.name, next) ∧ off' = next + 4 ∧ off' ≤ msg.length := by
  obtain ⟨ls, hls, hraw, hwire, hlaid⟩ := Question.laid_spelled hname hq h
  rw [hraw] at hlaid
  simp only [laid_raw, laid_uint16, laid_nil] at hlaid
  obtain ⟨hat, -, hc, -, rfl⟩ := hlaid
  have hend := hc.end_le (by simp [bigEndian])
  exact ⟨_, Name.decodeWire_of_spells_fold hwire (Labels.spells_encode hls hat) (Nat.zero_le _), rfl, hend⟩

end

theorem Question.plain_ops (q : Question) : ∀ op ∈ q.ops, op.compressed = none := by
  grind [ops, PackOp.compressed]

theorem inline_of_noPointer {msg : Bytes} {off hops next : Nat}
    (h : Labels.Spells msg off ls hops next)
    (hraw : raw = if next > off ∧ next ≤ msg.length then (msg.drop off).take (next - off) else [])
    (hno : ¬pointerAmongLabels raw.length raw = true) : At msg off (Labels.encode ls) ∧ raw = Labels.encode ls := by
  rw [if_pos ⟨h.lt_next, h.next_le⟩] at hraw
  rcases h.inline with ⟨-, hat, rfl⟩ | ⟨-, front, target, hfront, hfit, -, hat, rfl⟩
  · rw [Nat.add_sub_cancel_left, hat.take_drop] at hraw
    exact ⟨hat, hraw⟩
  · rw [Nat.add_sub_cancel_left, hat.take_drop] at hraw
    refine absurd (pointerAmongLabels_reference hfront hfit ?_) (hraw ▸ hno)
    have hlen := Labels.length_le_length_body front
    simp only [length_append, Labels.reference, length_cons, length_nil]
    omega

theorem ensures_unpackQuestion :
    unpackQuestion.Ensures maxHops c fun q _ => q.name.isValid ∧ q.rawName.length > 0 ∧ q.Spelled := by
  refine .bind <| .message <| .bind <| .offset <|
    .bind ?_
  refine .bind (.message (.bind (.offset
    (.bind (.environment (.bind (.ofExcept fun r hr => ?_)))))))
  refine .bind <| .setOffset <| .pure <| .bind <|
    .offset <| .bind <| .failIf fun hno => .bind <|
    ensures_uint16 fun _ => .bind <| ensures_uint16 fun _ => .pure ?_
  obtain ⟨ls, hops, hspells, hwire, -⟩ := spells_of_decodeWire hr
  obtain ⟨-, hraw⟩ := inline_of_noPointer hspells rfl hno
  rw [hraw]
  exact ⟨decodeWire_isValid hr, length_pos_iff.mpr (Labels.encode_ne_nil ls), ls, hspells.isLabel, rfl, hwire⟩

end Question

/-! ### Records -/

/-- The digits of `v` below the decimal point, `prec` of them, without the trailing zeros. -/
def fractionText (v prec : Nat) : String :=
  let digits := Nat.toDigits 10 (v % 10 ^ prec)
  let padded := List.replicate (prec - digits.length) '0' ++ digits
  match (padded.reverse.dropWhile (· = '0')).reverse with
  | [] => ""
  | kept => "." ++ String.ofList kept

/-- A span of time as `%s` prints it. -/
def Duration.string (d : Duration) : String :=
  let u := d.natAbs
  let sign := if d < 0 then "-" else ""
  if u = 0 then "0s"
  else if u < 1000 then s!"{sign}{u}ns"
  else if u < 1000000 then s!"{sign}{u / 1000}{fractionText u 3}µs"
  else if u < 1000000000 then s!"{sign}{u / 1000000}{fractionText u 6}ms"
  else
    let secs := u / 1000000000
    let s := s!"{secs % 60}{fractionText u 9}s"
    if secs < 60 then s!"{sign}{s}"
    else if secs < 3600 then s!"{sign}{secs / 60}m{s}"
    else s!"{sign}{secs / 3600}h{secs / 60 % 60}m{s}"

def maxRecordTTLSeconds : Int := 0x7fffffff

/-- A resource record; its type is that of its rdata. -/
structure Record where
  name : Name
  class_ : RRClass
  ttl : Duration
  rd : RData
  deriving DecidableEq

namespace Record

def type (r : Record) : RRType := r.rd.type

/-- The fields before the length of the rdata. -/
def head (r : Record) : List PackOp :=
  [.name r.name, .uint16 r.type, .uint16 r.class_, .uint32 r.ttl.seconds32]

/-- The record with its TTL as the wire carries it. -/
def sent (r : Record) : Record := { r with ttl := Duration.ofSeconds32 r.ttl.seconds32 }

/-- What the decoder returns. -/
def Normal (r : Record) : Prop := r.name.isValid ∧ r.rd.Normal

end Record

def newRecord (name : Name) (ttl : Duration) (rd : RData) : Record := ⟨name, RRClass.classIN, ttl, rd⟩

def newRecordClass (name : Name) (class_ : RRClass) (ttl : Duration) (rd : RData) : Record :=
  ⟨name, class_, ttl, rd⟩

def Record.asSOA (r : Record) : Option SOA :=
  match r.rd with
  | .soa soa => some soa
  | _ => none

theorem Record.type_of_asSOA {r : Record} {soa : SOA} (h : r.asSOA = some soa) : r.type = .soa := by
  grind [Record.type, Record.asSOA, RData.type]

/-- A negative TTL or one past 31 bits is refused. -/
def packRecord (p : Packer) (r : Record) : Except WireError Packer :=
  if r.ttl < 0 then
    .error ⟨.invalidTTL, s!"negative TTL {r.ttl.string} for type {r.type.string}"⟩
  else if r.ttl.tdiv second > maxRecordTTLSeconds then
    .error ⟨.invalidTTL,
      s!"TTL {r.ttl.string} exceeds RFC 2308 §8 ceiling (2^31-1 seconds) for type {r.type.string}"⟩
  else packFramed (invalidMessage s!"rdata too large for type {r.type.string}") p r.head r.rd.ops

/-- A TTL with its top bit set is read as zero (RFC 2181). -/
def unpackRecord : Decoder Record := do
  let n ← name
  let t16 ← uint16
  let c16 ← uint16
  let ttl ← uint32
  let ttl := if ttl ≥ 0x80000000 then 0 else ttl
  let rdlen ← uint16
  let rd ← RData.unpack t16 rdlen.toNat
  pure ⟨n, c16, Duration.ofSeconds32 ttl, rd⟩

/-- The record stands in `msg` as `packRecord` writes it. -/
def Record.LaidOut (msg : Bytes) (off : Nat) (r : Record) (hops : List Nat) (off' : Nat) : Prop :=
  Framed msg r.head r.rd.ops off hops off' ∧ r.ttl.seconds32 < 0x80000000 ∧ off' ≤ msg.length

section Record

variable {maxHops off off' : Nat} {msg : Bytes} {hops : List Nat} {c : Unpacker} {r : Record}
  {p q : Packer} {lay : Layout}

theorem packRecord_ok (h : packRecord p r = .ok q) :
    r.ttl.seconds32 < 0x80000000 ∧ ∃ tooLarge, packFramed tooLarge p r.head r.rd.ops = .ok q := by
  grind [packRecord, second, UInt32.toNat_ofNat', Duration.seconds32, UInt32.lt_iff_toNat_lt, maxRecordTTLSeconds]

theorem packRecord_spec (htracks : Tracks p lay) (h : packRecord p r = .ok q) :
    p.buf <+: q.buf ∧ Tracks q (lay.run (r.head ++ [.uint16 0] ++ r.rd.ops)).1 ∧
      ∀ msg, q.buf <+: msg → Record.LaidOut msg p.buf.length r
        (lay.run (r.head ++ [.uint16 0] ++ r.rd.ops)).2 q.buf.length := by
  grind [packRecord_ok, packFramed_spec, Record.head, Record.LaidOut]

theorem Record.LaidOut.inv (h : Record.LaidOut msg off r hops off') :
    ∃ hop back next mid, ∃ rdlen : UInt16, hops = hop :: back ∧ Labels.Spells msg off r.name.labels hop next ∧
      At msg next (bigEndian 2 r.type.toNat) ∧ At msg (next + 2) (bigEndian 2 r.class_.toNat) ∧
      At msg (next + 4) (bigEndian 4 r.ttl.seconds32.toNat) ∧ At msg (next + 8) (bigEndian 2 rdlen.toNat) ∧
      mid = next + 10 ∧ Laid msg mid r.rd.ops back (mid + rdlen.toNat) ∧ off' = mid + rdlen.toNat := by
  obtain ⟨⟨rdlen, mid, front, back, rfl, hhead, hbody, rfl⟩, -, -⟩ := h
  obtain ⟨hop, rest, next, rfl, hname, hrest⟩ := laid_name.mp hhead
  obtain ⟨htype, hrest⟩ := laid_uint16.mp hrest
  obtain ⟨hclass, hrest⟩ := laid_uint16.mp hrest
  obtain ⟨httl, hrest⟩ := laid_uint32.mp hrest
  obtain ⟨hrdlen, hnil⟩ := laid_uint16.mp hrest
  obtain ⟨rfl, rfl⟩ := laid_nil.mp hnil
  exact ⟨hop, back, next, _, rdlen, rfl, hname, htype, hclass, httl, hrdlen, rfl, hbody, rfl⟩

theorem Record.LaidOut.lt (h : Record.LaidOut msg off r hops off') : off + 10 < off' := by
  obtain ⟨hop, back, next, mid, rdlen, -, hname, -, -, -, -, rfl, -, rfl⟩ := h.inv
  have hlt := hname.lt_next
  omega

theorem reads_unpackRecord (hr : r.Normal) (h : Record.LaidOut msg off r hops off')
    (hhops : ∀ hop ∈ hops, hop ≤ maxHops) : unpackRecord.Reads maxHops msg off r.sent off' := by
  obtain ⟨hop, back, next, mid, rdlen, rfl, hname, htype, hclass, httl, hrdlen, rfl, hbody, rfl⟩ := h.inv
  obtain ⟨hhop, hback⟩ := forall_mem_cons.mp hhops
  have hsmall : ¬r.ttl.seconds32 ≥ 0x80000000 := UInt32.not_le.mpr h.2.1
  refine .bind (reads_name hr.1 hname hhop) <| .bind (reads_uint16 htype) <|
    .bind (reads_uint16 hclass) <| .bind (reads_uint32 httl) <| .bind (reads_uint16 hrdlen) ?_
  rw [if_neg hsmall]
  exact .bind (RData.reads_unpack hr.2 hbody hback h.2.2) (reads_pure _)

theorem fails_unpackRecord (hr : r.Normal) (h : Record.LaidOut msg off r hops off')
    (hhops : ∃ hop ∈ hops, ¬hop ≤ maxHops) : unpackRecord.Fails maxHops ⟨msg, off⟩ := by
  obtain ⟨hop, back, next, mid, rdlen, rfl, hname, htype, hclass, httl, hrdlen, rfl, hbody, rfl⟩ := h.inv
  by_cases hhop : hop ≤ maxHops
  · refine Reads.bind_fails (reads_name hr.1 hname hhop) <| Reads.bind_fails (reads_uint16 htype) <|
      Reads.bind_fails (reads_uint16 hclass) <| Reads.bind_fails (reads_uint32 httl) <|
      Reads.bind_fails (reads_uint16 hrdlen) <| Fails.bind (RData.fails_unpack hr.2 hbody ?_ h.2.2)
    obtain ⟨k, hk, hgt⟩ := hhops
    rcases mem_cons.mp hk with rfl | hk
    · exact absurd hhop hgt
    · exact ⟨k, hk, Nat.not_le.mp hgt⟩
  · exact Fails.bind (fails_name hr.1 hname (Nat.not_le.mp hhop))

theorem Record.LaidOut.peek (h : Record.LaidOut msg off r hops off') :
    ∃ hop next, hop ∈ hops ∧ Labels.Spells msg off r.name.labels hop next ∧
      At msg next (bigEndian 2 r.type.toNat) := by
  grind [inv]

theorem ensures_unpackRecord : unpackRecord.Ensures maxHops c fun r _ => r.Normal ∧ r.sent = r := by
  refine .bind <| ensures_name fun n _ hn => .bind <| ensures_uint16 fun t =>
    .bind <| ensures_uint16 fun _ => .bind <| ensures_uint32 fun ttl =>
    .bind <| ensures_uint16 fun rdlen => .bind <|
    RData.ensures_unpack.mono fun rd _ hrd => .pure ⟨⟨hn, hrd.2⟩, ?_⟩
  simp only [Record.sent, Duration.seconds32_ofSeconds32]

end Record

end Acidns
