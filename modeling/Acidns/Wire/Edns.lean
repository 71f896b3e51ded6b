import Acidns.Wire.Record

/-!
# EDNS

`edns.go`: the OPT pseudo-record, which carries the extension fields of a message in the places of an
ordinary record. Its options come with distinct codes.
-/

namespace Acidns

open Parser Decoder
open Octets (At bigEndian)

/-- One option of the OPT record (RFC 6891). -/
structure EDNSOption where
  code : UInt16
  data : Bytes
  deriving DecidableEq

/-- The OPT pseudo-record, with its class and TTL fields taken apart. -/
structure EDNS where
  udpSize : UInt16
  extRCODE : UInt8
  version : UInt8
  do_ : Bool
  opts : List EDNSOption
  deriving DecidableEq

def optTypeWire : UInt16 := 41

def doBit : UInt32 := 0x8000

/-- The TTL field of the OPT record, put together again. -/
def EDNS.ttl (e : EDNS) : UInt32 :=
  let ttl := UInt32.ofNat e.extRCODE.toNat <<< 24 ||| UInt32.ofNat e.version.toNat <<< 16
  if e.do_ then ttl ||| doBit else ttl

def EDNSOption.ops (o : EDNSOption) : List PackOp :=
  [.uint16 o.code, .uint16 (UInt16.ofNat o.data.length), .raw o.data]

def EDNS.head (e : EDNS) : List PackOp :=
  [.uint8 0, .uint16 optTypeWire, .uint16 e.udpSize, .uint32 e.ttl]

def EDNS.optOps (e : EDNS) : List PackOp := e.opts.flatMap EDNSOption.ops

/-- An OPT record is packed by hand, its owner being the root. -/
def packOPT (p : Packer) (e : EDNS) : Except WireError Packer :=
  packFramed (invalidMessage "OPT rdata exceeds 65535 bytes") p e.head e.optOps

def unpackOption (end_ : Nat) (opts : List EDNSOption) : Decoder (List EDNSOption) := do
  let code ← uint16
  let l ← uint16
  let off ← offset
  failIf (off + l.toNat > end_)
    (invalidMessage s!"OPT option length {l.toNat} at off {off} would exceed rdata window end {end_}")
  failIf (opts.any fun o => o.code = code) (invalidMessage s!"duplicate EDNS option code {code.toNat}")
  let data ← bytes l.toNat
  pure (opts ++ [⟨code, data⟩])

/-- The body of an OPT record, from its owner on. -/
def unpackOPT : Decoder EDNS := do
  let n ← name
  failIf (n.numLabels ≠ 0) (invalidMessage "OPT NAME must be root (RFC 6891 §6.1.2)")
  let t ← uint16
  failIf (t ≠ optTypeWire) (invalidMessage s!"expected OPT, got type {t.toNat}")
  let udpSize ← uint16
  let ttl ← uint32
  let rdlen ← uint16
  let left ← remaining
  failIf (left < rdlen.toNat) (invalidMessage "OPT rdata truncated")
  let off ← offset
  let end_ := off + rdlen.toNat
  let opts ← loopUntil end_ (unpackOption end_) rdlen.toNat []
  let off ← offset
  failIf (off ≠ end_) (invalidMessage
    s!"OPT consumed {(rdlen.toNat : Int) - ((end_ : Int) - off)} bytes, rdlen was {rdlen.toNat}")
  pure ⟨udpSize, (ttl >>> 24).toUInt8, (ttl >>> 16).toUInt8, ttl &&& doBit ≠ 0, opts⟩

/-- What `unpackOPT` returns: no option code twice, every length in range. -/
structure EDNS.Normal (e : EDNS) : Prop where
  distinct : e.opts.Pairwise (·.code ≠ ·.code)
  length : ∀ o ∈ e.opts, o.data.length ≤ 65535

/-- The pseudo-record stands in `msg` as `packOPT` writes it. -/
def EDNS.LaidOut (msg : Bytes) (off : Nat) (e : EDNS) (off' : Nat) : Prop :=
  Framed msg e.head e.optOps off [] off' ∧ off' ≤ msg.length

section Edns

variable {maxHops off off' : Nat} {msg : Bytes} {c : Unpacker} {e : EDNS} {p q : Packer} {lay : Layout}

/-! ### The TTL field -/

theorem EDNS.toNat_ttl (e : EDNS) :
    e.ttl.toNat = e.extRCODE.toNat * 2 ^ 24 + e.version.toNat * 2 ^ 16 + (if e.do_ then 2 ^ 15 else 0) := by
  have hext := e.extRCODE.toNat_lt
  have hver := e.version.toNat_lt
  have hshift : ∀ {n k : Nat}, n < 2 ^ 8 → k ≤ 24 → (UInt32.ofNat n <<< UInt32.ofNat k).toNat = n <<< k :=
    fun {n k} hn hk => by
      rw [UInt32.toNat_shiftLeft, UInt32.toNat_ofNat', UInt32.toNat_ofNat', Nat.mod_eq_of_lt (a := n) (by omega),
        Nat.mod_eq_of_lt (a := k) (by omega), Nat.mod_eq_of_lt (a := k) (by omega)]
      refine Nat.mod_eq_of_lt ?_
      rw [Nat.shiftLeft_eq]
      calc n * 2 ^ k ≤ n * 2 ^ 24 := Nat.mul_le_mul_left n (Nat.pow_le_pow_right (by decide) hk)
        _ < 2 ^ 32 := by omega
  have hword : (UInt32.ofNat e.extRCODE.toNat <<< 24 ||| UInt32.ofNat e.version.toNat <<< 16).toNat =
      (e.extRCODE.toNat * 2 ^ 8 + e.version.toNat) <<< 16 := by
    have hlt : e.version.toNat <<< 16 < 2 ^ 24 := by rw [Nat.shiftLeft_eq]; omega
    rw [UInt32.toNat_or, show (24 : UInt32) = UInt32.ofNat 24 from rfl, show (16 : UInt32) = UInt32.ofNat 16 from rfl,
      hshift hext (by decide), hshift hver (by decide), ← Nat.shiftLeft_add_eq_or_of_lt hlt]
    omega
  rw [EDNS.ttl]
  split
  · rw [UInt32.toNat_or, hword, show doBit.toNat = 2 ^ 15 from rfl,
      ← Nat.shiftLeft_add_eq_or_of_lt (by decide), Nat.shiftLeft_eq]
    omega
  · rw [hword, Nat.shiftLeft_eq]
    omega

theorem EDNS.ttl_fields (e : EDNS) : (e.ttl >>> 24).toUInt8 = e.extRCODE ∧
    (e.ttl >>> 16).toUInt8 = e.version ∧ decide (e.ttl &&& doBit ≠ 0) = e.do_ := by
  have hext := e.extRCODE.toNat_lt
  have hver := e.version.toNat_lt
  have hdo : (if e.do_ then 2 ^ 15 else 0) < 2 ^ 16 := by split <;> decide
  have httl := e.toNat_ttl
  refine ⟨UInt8.toNat_inj.mp ?_, UInt8.toNat_inj.mp ?_, ?_⟩
  · rw [UInt32.toNat_toUInt8, UInt32.toNat_shiftRight, Nat.shiftRight_eq_div_pow, httl]
    change _ / 2 ^ 24 % _ = _
    omega
  · rw [UInt32.toNat_toUInt8, UInt32.toNat_shiftRight, Nat.shiftRight_eq_div_pow, httl]
    change _ / 2 ^ 16 % _ = _
    omega
  · rw [Bool.eq_iff_iff, decide_eq_true_iff, ne_eq, ← UInt32.toNat_inj, UInt32.toNat_and, show doBit.toNat = 2 ^ 15 from rfl,
      Nat.and_two_pow, Nat.testBit_eq_decide_div_mod_eq, httl]
    cases e.do_ with
    | false =>
      simp
      omega
    | true =>
      simp
      omega

/-! ### Round trip -/

theorem EDNSOption.bytes_ops (o : EDNSOption) : o.ops.flatMap PackOp.bytes =
    bigEndian 2 o.code.toNat ++ (bigEndian 2 (UInt16.ofNat o.data.length).toNat ++ o.data) := by
  simp [EDNSOption.ops, PackOp.bytes]

theorem EDNSOption.length_bytes_ops (o : EDNSOption) :
    (o.ops.flatMap PackOp.bytes).length = 4 + o.data.length := by
  simp only [o.bytes_ops, List.length_append, Octets.length_bigEndian]
  omega

theorem EDNS.plain_optOps (e : EDNS) : ∀ op ∈ e.optOps, op.compressed = none := by
  grind [EDNSOption.ops, optOps, PackOp.compressed]

theorem reads_unpackOption {end_ : Nat} {opts : List EDNSOption} {o : EDNSOption}
    (hlen : o.data.length ≤ 65535) (hnew : ∀ o' ∈ opts, o'.code ≠ o.code)
    (hat : At msg off (o.ops.flatMap PackOp.bytes)) (hend : off + (o.ops.flatMap PackOp.bytes).length ≤ end_) :
    (unpackOption end_ opts).Reads maxHops msg off (opts ++ [o])
      (off + (o.ops.flatMap PackOp.bytes).length) := by
  have hfit := hat.end_le (List.ne_nil_of_length_pos (by rw [o.length_bytes_ops]; omega))
  rw [o.length_bytes_ops] at *
  rw [o.bytes_ops, Octets.at_append, Octets.at_append, Octets.length_bigEndian, Octets.length_bigEndian] at hat
  obtain ⟨hcode, hl, hdata⟩ := hat
  have hword := toNat_ofNat16 hlen
  have hany : ¬(opts.any fun o' => o'.code = o.code) := by simpa using hnew
  rw [show off + (4 + o.data.length) = off + 2 + 2 + o.data.length by omega]
  exact .bind (reads_uint16 hcode) <| .bind (reads_uint16 hl) <| .bind reads_offset <|
    .bind (reads_failIf (by omega)) <| .bind (reads_failIf hany) <|
    .bind (reads_bytes hdata (by omega) (by omega)) (reads_pure _)

theorem EDNS.LaidOut.inv (h : EDNS.LaidOut msg off e off') :
    ∃ rdlen : UInt16, At msg off [0] ∧ At msg (off + 1) (bigEndian 2 optTypeWire.toNat) ∧
      At msg (off + 3) (bigEndian 2 e.udpSize.toNat) ∧ At msg (off + 5) (bigEndian 4 e.ttl.toNat) ∧
      At msg (off + 9) (bigEndian 2 rdlen.toNat) ∧
      At msg (off + 11) (e.opts.flatMap fun o => o.ops.flatMap PackOp.bytes) ∧
      rdlen.toNat = (e.opts.flatMap fun o => o.ops.flatMap PackOp.bytes).length ∧
      off' = off + 11 + rdlen.toNat := by
  obtain ⟨⟨rdlen, mid, front, back, -, hhead, hbody, rfl⟩, -⟩ := h
  simp only [EDNS.head, List.cons_append, List.nil_append, laid_uint8, laid_uint16, laid_uint32, laid_nil] at hhead
  obtain ⟨hname, htype, hsize, httl, hrdlen, -, rfl⟩ := hhead
  obtain ⟨-, hat, hlen⟩ := hbody.plain_inv e.plain_optOps
  rw [EDNS.optOps, List.flatMap_assoc] at hat hlen
  exact ⟨rdlen, hname, htype, hsize, httl, hrdlen, hat, by omega, rfl⟩

theorem reads_unpackOPT (he : e.Normal) (h : EDNS.LaidOut msg off e off') :
    unpackOPT.Reads maxHops msg off e off' := by
  have hend := h.2
  obtain ⟨rdlen, hname, htype, hsize, httl, hrdlen, hat, hlen, rfl⟩ := h.inv
  have hroot : name.Reads maxHops msg off Name.root (off + 1) :=
    reads_name (by decide) (.root hname) (Nat.zero_le _)
  have hloop : (loopUntil (off + 11 + rdlen.toNat) (unpackOption (off + 11 + rdlen.toNat)) rdlen.toNat []).Reads
      maxHops msg (off + 11) (e.opts.foldl (fun out o => out ++ [o]) []) (off + 11 + rdlen.toNat) := by
    refine reads_loopUntil (fun out o => out ++ [o]) _ e.opts hat (by omega) (Nat.le_refl _) ?_ ?_
    · exact fun o _ => List.ne_nil_of_length_pos (by rw [o.length_bytes_ops]; omega)
    · intro pre o post k hsplit ho hle
      rw [foldl_concat, List.nil_append]
      have hdistinct := he.distinct
      rw [hsplit] at hdistinct
      exact reads_unpackOption (he.length o (by simp [hsplit]))
        (fun o' ho' => (List.pairwise_append.mp hdistinct).2.2 o' ho' o (.head _)) ho hle
  rw [foldl_concat, List.nil_append] at hloop
  obtain ⟨hext, hver, hdo⟩ := e.ttl_fields
  refine .bind hroot <| .bind (reads_failIf (by decide)) <| .bind (reads_uint16 htype) <|
    .bind (reads_failIf (by simp)) <| .bind (reads_uint16 hsize) <| .bind (reads_uint32 httl) <|
    .bind (reads_uint16 hrdlen) <|
    .bind (.bind reads_message (.bind reads_offset (reads_pure _))) <|
    .bind (reads_failIf (by omega)) <| .bind reads_offset <| .bind hloop <|
    .bind reads_offset <| .bind (reads_failIf (by simp)) ?_
  rw [hext, hver, hdo]
  exact reads_pure e

theorem ensures_unpackOPT : unpackOPT.Ensures maxHops c fun e _ => e.Normal := by
  let inv (opts : List EDNSOption) (_ : Unpacker) : Prop :=
    opts.Pairwise (·.code ≠ ·.code) ∧ ∀ o ∈ opts, o.data.length ≤ 65535
  have hstep : ∀ end_ opts (c : Unpacker), inv opts c →
      (unpackOption end_ opts).Ensures maxHops c fun opts' c' => inv opts' c' := by
    intro end_ opts c hopts
    rw [unpackOption]
    refine ensures_of_reads fun opts' off' h => ?_
    simp at h
    obtain ⟨code, -, l, -, -, hnew, data, ⟨-, hdata, -⟩, rfl, -⟩ := h
    have hl := l.toNat_lt
    refine ⟨List.pairwise_append.mpr ⟨hopts.1, List.pairwise_singleton _ _, ?_⟩, ?_⟩
    · intro o ho o' ho'
      rw [List.mem_singleton.mp ho']
      exact hnew o ho
    · grind
  exact .bind <| ensures_name fun _ _ _ => .bind <| .failIf fun _ =>
    .bind <| ensures_uint16 fun _ => .bind <| .failIf fun _ =>
    .bind <| ensures_uint16 fun _ => .bind <| ensures_uint32 fun _ =>
    .bind <| ensures_uint16 fun _ => .bind <| .bind <| .message <|
    .bind <| .offset <| .pure <| .bind <|
    .failIf fun _ => .bind <| .offset <| .bind <|
    (ensures_loopUntil inv ⟨.nil, by simp⟩ fun opts c hopts _ => hstep _ opts c hopts).mono fun _ _ hopts =>
    .bind <| .offset <| .bind <| .failIf fun _ =>
    .pure ⟨hopts.1, hopts.2⟩

theorem packOPT_spec (htracks : Tracks p lay) (h : packOPT p e = .ok q) :
    p.buf <+: q.buf ∧ ∀ msg, q.buf <+: msg → EDNS.LaidOut msg p.buf.length e q.buf.length := by
  obtain ⟨hgrow, -, hlaid⟩ := packFramed_spec htracks h
  have hhops : (lay.run (e.head ++ [.uint16 0] ++ e.optOps)).2 = [] := by
    refine Layout.run_plain fun op hop => ?_
    rcases List.mem_append.mp hop with hop | hop
    · simp only [EDNS.head, List.mem_append, List.mem_cons, List.not_mem_nil, or_false] at hop
      rcases hop with (rfl | rfl | rfl | rfl) | rfl <;> rfl
    · exact e.plain_optOps op hop
  rw [hhops] at hlaid
  exact ⟨hgrow, fun msg hmsg => ⟨hlaid msg hmsg, hmsg.length_le⟩⟩

end Edns

end Acidns
