import Acidns.Lib.Labels

/-!
# Domain names

`wirebb/name.go`: a name is held as its canonical lower-case wire encoding. The field is unexported, so every name is the invalid zero name or was built by a constructor; the structure carries that as an invariant.

The decoders of a name are here as well. The number of compression pointers a decoder follows is bounded by the constant `maxPtrHops`; the loop takes the bound as an argument, so that what the format means can be told apart from what the bound rejects.
-/

namespace Acidns

open List

variable {l wire : Bytes}

open Octets (At)
open Labels (IsLabel)

abbrev Bytes := List UInt8

/-! ### Errors -/

/-- The exported errors of the source that callers tell apart. -/
inductive Sentinel where
  | truncated
  | invalidName
  | invalidRData
  | invalidMessage
  | invalidTTL
  | plain
  /-- Not of the source: a result that the types of the model do not hold. -/
  | unmodelled
  deriving DecidableEq

/-- An error with the sentinel that `errors.Is` finds in it. -/
structure WireError where
  sentinel : Sentinel
  text : String
  deriving DecidableEq

/-- The text of an error of the source, which `%w` puts in front. -/
def Sentinel.text : Sentinel → Option String
  | truncated => some "wire: truncated"
  | invalidName => some "wirebb: invalid name"
  | invalidRData => some "rdata: invalid"
  | invalidMessage => some "wire: invalid message"
  | invalidTTL => some "wire: invalid TTL"
  | plain | unmodelled => none

/-- `Error`. -/
def WireError.message (e : WireError) : String :=
  match e.sentinel.text with
  | none => e.text
  | some lead => if e.text = "" then lead else lead ++ ": " ++ e.text

/-- `%02x` of the source. -/
def hexByte (b : UInt8) : String :=
  let digits := String.ofList (Nat.toDigits 16 b.toNat)
  if b < 16 then "0" ++ digits else digits

def invalidName (text : String) : WireError := ⟨.invalidName, text⟩

/-! ### Names -/

/-- The longest label (RFC 1035). -/
def maxLabelLen : Nat := 63
/-- The longest name on the wire, with the root label. -/
def maxNameLen : Nat := 255
/-- The most pointers that `decodeWire` follows for one name. -/
def maxPtrHops : Nat := 32

/-- ASCII letters in lower case; every other byte as it is. -/
def foldByte (c : UInt8) : UInt8 :=
  if 0x41 ≤ c ∧ c ≤ 0x5a then c + 0x20 else c

def foldLabel (l : Bytes) : Bytes := l.map foldByte

/-- A label of a decoded name: of legal length and in lower case. -/
def IsNameLabel (l : Bytes) : Prop := IsLabel l ∧ ∀ b ∈ l, foldByte b = b

instance (l : Bytes) : Decidable (IsNameLabel l) := inferInstanceAs (Decidable (_ ∧ _))

/-- The encoding of folded labels, within the length bound. -/
def WellFormed (wire : Bytes) : Prop :=
  ∃ ls, (∀ l ∈ ls, IsNameLabel l) ∧ wire = Labels.encode ls ∧ wire.length ≤ maxNameLen

theorem wellFormed_iff_split (wire : Bytes) :
    WellFormed wire ↔ (∀ l ∈ Labels.split wire, IsNameLabel l) ∧
      wire = Labels.encode (Labels.split wire) ∧ wire.length ≤ maxNameLen := by
  grind [Labels.split_encode, WellFormed, IsNameLabel]

instance (wire : Bytes) : Decidable (WellFormed wire) :=
  decidable_of_iff _ (wellFormed_iff_split wire).symm

/-- A name as the decoders and `FromLabels` return it, in lower case, or the zero value. The names that `Parse` makes of
decimal escapes can have upper-case letters; they are of type `RawName`. -/
structure Name where
  wire : Bytes
  inv : wire = [] ∨ WellFormed wire
  deriving DecidableEq

namespace Name

/-- The zero value of the source, which is not a valid name. -/
def zero : Name := ⟨[], .inl rfl⟩

instance : Inhabited Name := ⟨zero⟩

def isValid (n : Name) : Bool := n.wire.length > 0

def isRoot (n : Name) : Bool := n.wire = [0]

/-- The labels from left to right, without the root's. -/
def labels (n : Name) : List Bytes := if n.isValid then Labels.split n.wire else []

def numLabels (n : Name) : Nat := n.labels.length

/-- Names are compared byte by byte. -/
def equal (n o : Name) : Bool := n.wire = o.wire

theorem equal_iff {n o : Name} : n.equal o = true ↔ n = o := by
  obtain ⟨wire, inv⟩ := n
  obtain ⟨wire', inv'⟩ := o
  simp [equal]

/-- An invalid name is written as the root. -/
def appendWire (n : Name) (buf : Bytes) : Bytes :=
  if n.isValid then buf ++ n.wire else buf ++ [0]

/-- The number of bytes `appendWire` adds. -/
def wireLen (n : Name) : Nat := if n.isValid then n.wire.length else 1

def root : Name := ⟨[0], .inr (by decide)⟩

end Name

theorem WellFormed.drop_first (h : WellFormed wire) (hroot : wire ≠ [0]) :
    WellFormed (wire.drop (1 + (wire.headD 0).toNat)) := by
  obtain ⟨ls, hls, rfl, hlen⟩ := h
  cases ls with
  | nil => exact absurd rfl hroot
  | cons l ls =>
    rw [Labels.drop_encode_cons (hls l mem_cons_self).1]
    refine ⟨ls, fun k hk => hls k (.tail _ hk), rfl, ?_⟩
    have hlt := Labels.length_encode_lt_cons l ls
    omega

namespace Name

/-- The name without its first label; none for the root. -/
def parent (n : Name) : Option Name :=
  if h : n.wire ≠ [] ∧ n.wire ≠ [0] then
    some ⟨n.wire.drop (1 + (n.wire.headD 0).toNat), .inr ((n.inv.resolve_left h.1).drop_first h.2)⟩
  else none

end Name

/-! ### Decoding -/

/-- The loop of `DecodeWire`. A round grows the name or follows a pointer; both are bounded, so the fuel is never used
up. -/
def decodeWireLoop (maxHops : Nat) (msg : Bytes) :
    (fuel cur : Nat) → (out : Bytes) → (nextOff : Option Nat) → (hops total : Nat) →
      Except WireError (Bytes × Nat)
  | 0, _, _, _, _, _ => .error (invalidName "truncated")
  | fuel + 1, cur, out, nextOff, hops, total =>
    match msg[cur]? with
    | none => .error (invalidName "truncated")
    | some b =>
      if b &&& 0xc0 = 0 then
        let l := b.toNat
        if l = 0 then
          if total + 1 > maxNameLen then .error (invalidName "name exceeds 255 bytes")
          else .ok (out ++ [0], nextOff.getD (cur + 1))
        else if cur + 1 + l > msg.length then .error (invalidName "truncated label")
        else if total + (1 + l) > maxNameLen then .error (invalidName "name exceeds 255 bytes")
        else
          decodeWireLoop maxHops msg fuel (cur + 1 + l)
            (out ++ b :: ((msg.drop (cur + 1)).take l).map foldByte) nextOff hops (total + (1 + l))
      else if b &&& 0xc0 = 0xc0 then
        match msg[cur + 1]? with
        | none => .error (invalidName "truncated pointer")
        | some lo =>
          let ptr := (b &&& 0x3f).toNat * 256 + lo.toNat
          if ptr ≥ cur then .error (invalidName "forward or self pointer")
          else if hops + 1 > maxHops then .error (invalidName "pointer loop")
          else
            decodeWireLoop maxHops msg fuel ptr out (some (nextOff.getD (cur + 2))) (hops + 1)
              total
      else .error (invalidName s!"reserved label type 0x{hexByte (b &&& 0xc0)}")

/-- The loop of `DecodeWireUncompressed`, which takes no pointer. -/
def decodeWireUncompressedLoop (msg : Bytes) :
    (fuel cur : Nat) → (out : Bytes) → (total : Nat) → Except WireError (Bytes × Nat)
  | 0, _, _, _ => .error (invalidName "truncated")
  | fuel + 1, cur, out, total =>
    match msg[cur]? with
    | none => .error (invalidName "truncated")
    | some b =>
      if b &&& 0xc0 = 0 then
        let l := b.toNat
        if l = 0 then
          if total + 1 > maxNameLen then .error (invalidName "name exceeds 255 bytes")
          else .ok (out ++ [0], cur + 1)
        else if cur + 1 + l > msg.length then .error (invalidName "truncated label")
        else if total + (1 + l) > maxNameLen then .error (invalidName "name exceeds 255 bytes")
        else
          decodeWireUncompressedLoop msg fuel (cur + 1 + l)
            (out ++ b :: ((msg.drop (cur + 1)).take l).map foldByte) (total + (1 + l))
      else if b &&& 0xc0 = 0xc0 then
        .error (invalidName "compression pointer not allowed here")
      else .error (invalidName s!"reserved label type 0x{hexByte (b &&& 0xc0)}")

theorem foldByte_foldByte (c : UInt8) : foldByte (foldByte c) = foldByte c :=
  forall_byte (P := fun c => foldByte (foldByte c) = foldByte c) (by decide +kernel) c

/-- The invariant of the decoding loop: what is written so far is whole folded labels. -/
def OutputOk (out : Bytes) (total : Nat) : Prop :=
  (∃ ls, (∀ l ∈ ls, IsNameLabel l) ∧ out = Labels.body ls) ∧ total = out.length

theorem outputOk_nil : OutputOk [] 0 := ⟨⟨[], by simp, rfl⟩, rfl⟩

variable {out msg : Bytes} {total cur maxHops fuel next off : Nat} {n : Name}

theorem OutputOk.wellFormed (h : OutputOk out total)
    (hlen : ¬total + 1 > maxNameLen) : WellFormed (out ++ [0]) := by
  obtain ⟨⟨ls, hls, rfl⟩, rfl⟩ := h
  refine ⟨ls, hls, (Labels.encode_eq_body ls).symm, ?_⟩
  rw [length_append, length_singleton]
  omega

theorem OutputOk.append_label {b : UInt8} (h : OutputOk out total)
    (htop : b &&& 0xc0 = 0) (hzero : ¬b.toNat = 0) (hend : ¬cur + 1 + b.toNat > msg.length) :
    OutputOk (out ++ b :: ((msg.drop (cur + 1)).take b.toNat).map foldByte) (total + (1 + b.toNat)) := by
  obtain ⟨⟨ls, hls, rfl⟩, rfl⟩ := h
  have hlen : (((msg.drop (cur + 1)).take b.toNat).map foldByte).length = b.toNat := by
    simp only [length_map, length_take, length_drop]
    omega
  have hlabel : IsNameLabel (((msg.drop (cur + 1)).take b.toNat).map foldByte) := by
    refine ⟨⟨by omega, ?_⟩, ?_⟩
    · rw [hlen]
      exact (Labels.and_c0_eq_zero b).mp htop
    · intro c hc
      obtain ⟨d, -, rfl⟩ := mem_map.mp hc
      exact foldByte_foldByte d
  refine ⟨⟨ls ++ [((msg.drop (cur + 1)).take b.toNat).map foldByte], ?_, ?_⟩, ?_⟩
  · intro l hl
    rcases mem_append.mp hl with hl | hl
    · exact hls l hl
    · rw [mem_singleton.mp hl]
      exact hlabel
  · rw [Labels.body_concat, hlen, UInt8.ofNat_toNat]
  · rw [length_append, length_cons, hlen]
    omega

theorem decodeWireLoop_wellFormed {hops : Nat}
    {nextOff : Option Nat} (hout : OutputOk out total)
    (h : decodeWireLoop maxHops msg fuel cur out nextOff hops total = .ok (wire, next)) :
    WellFormed wire := by
  fun_induction decodeWireLoop maxHops msg fuel cur out nextOff hops total with
  | case4 _ _ out _ _ total _ _ _ _ _ hlen =>
    cases h
    exact hout.wellFormed hlen
  | case7 _ _ _ _ _ _ _ _ htop _ hzero hend _ ih => exact ih (hout.append_label htop hzero hend) h
  | case11 _ _ _ _ _ _ _ _ _ _ _ _ _ _ _ ih => exact ih hout h
  | _ => cases h

theorem decodeWireUncompressedLoop_wellFormed (hout : OutputOk out total)
    (h : decodeWireUncompressedLoop msg fuel cur out total = .ok (wire, next)) : WellFormed wire := by
  fun_induction decodeWireUncompressedLoop msg fuel cur out total with
  | case4 _ _ out total _ _ _ _ _ hlen =>
    cases h
    exact hout.wellFormed hlen
  | case7 _ _ _ _ _ _ htop _ hzero hend _ ih => exact ih (hout.append_label htop hzero hend) h
  | _ => cases h

/-- `DecodeWire`: the name at `off` and the offset behind its inline part. The source has `maxPtrHops` for `maxHops`. -/
def decodeWire (maxHops : Nat) (msg : Bytes) (off : Nat) : Except WireError (Name × Nat) :=
  if off ≥ msg.length then .error (invalidName s!"offset {off} out of range")
  else
    match h : decodeWireLoop maxHops msg (maxNameLen + maxHops + 2) off [] none 0 0 with
    | .ok (wire, next) => .ok (⟨wire, .inr (decodeWireLoop_wellFormed outputOk_nil h)⟩, next)
    | .error e => .error e

/-- A name without pointers, and the offset behind it. -/
def decodeWireUncompressed (msg : Bytes) (off : Nat) : Except WireError (Name × Nat) :=
  if off ≥ msg.length then .error (invalidName s!"offset {off} out of range")
  else
    match h : decodeWireUncompressedLoop msg (maxNameLen + 2) off [] 0 with
    | .ok (wire, next) => .ok (⟨wire, .inr (decodeWireUncompressedLoop_wellFormed outputOk_nil h)⟩, next)
    | .error e => .error e

theorem decodeWire_eq_ok :
    decodeWire maxHops msg off = .ok (n, next) ↔ off < msg.length ∧
      decodeWireLoop maxHops msg (maxNameLen + maxHops + 2) off [] none 0 0 = .ok (n.wire, next) := by
  obtain ⟨wire, inv⟩ := n
  rw [decodeWire]
  by_cases hoff : off ≥ msg.length
  · simp [if_pos hoff, Nat.not_lt.mpr hoff]
  · grind

theorem decodeWireUncompressed_eq_ok :
    decodeWireUncompressed msg off = .ok (n, next) ↔ off < msg.length ∧
      decodeWireUncompressedLoop msg (maxNameLen + 2) off [] 0 = .ok (n.wire, next) := by
  obtain ⟨wire, inv⟩ := n
  rw [decodeWireUncompressed]
  by_cases hoff : off ≥ msg.length
  · simp [if_pos hoff, Nat.not_lt.mpr hoff]
  · grind

/-! ### Decoding what is spelled -/

section Spelled

variable {maxHops fuel cur hops total next extra : Nat} {msg out : Bytes} {nextOff : Option Nat}
  {ls : List Bytes}

theorem IsNameLabel.foldLabel_eq (hl : IsNameLabel l) : foldLabel l = l := map_eq_self hl.2

theorem map_foldLabel_eq (hls : ∀ l ∈ ls, IsNameLabel l) : ls.map foldLabel = ls :=
  map_eq_self fun l hl => (hls l hl).foldLabel_eq

@[simp] theorem length_foldLabel (l : Bytes) : (foldLabel l).length = l.length := length_map _

theorem length_encode_map_foldLabel (ls : List Bytes) :
    (Labels.encode (ls.map foldLabel)).length = (Labels.encode ls).length := by
  induction ls with
  | nil => rfl
  | cons l ls ih => rw [map_cons, Labels.length_encode_cons, Labels.length_encode_cons, ih, length_foldLabel]

private theorem decodeWireLoop_label (hl : IsLabel l)
    (hbytes : At msg cur (UInt8.ofNat l.length :: l)) (htotal : total + (1 + l.length) ≤ maxNameLen) :
    decodeWireLoop maxHops msg (fuel + 1) cur out nextOff hops total =
      decodeWireLoop maxHops msg fuel (cur + 1 + l.length) (out ++ UInt8.ofNat l.length :: foldLabel l) nextOff
        hops (total + (1 + l.length)) := by
  obtain ⟨hlen, hbody⟩ := Octets.at_cons.mp hbytes
  have hend := hbytes.end_le (by simp)
  rw [length_cons] at hend
  have hpos := hl.1
  rw [decodeWireLoop, hlen.getElem?]
  simp only [hl.and_c0, hl.toNat_length, if_true]
  rw [if_neg (by omega), if_neg (by omega), if_neg (by omega), hbody.take_drop]
  rfl

private theorem decodeWireLoop_pointer {target : Nat} (hback : target < cur) (hfit : target < 2 ^ 14)
    (hbytes : At msg cur (Labels.reference target)) :
    decodeWireLoop maxHops msg (fuel + 1) cur out nextOff hops total =
      if hops + 1 > maxHops then .error (invalidName "pointer loop")
      else decodeWireLoop maxHops msg fuel target out (some (nextOff.getD (cur + 2))) (hops + 1) total := by
  obtain ⟨hhi, hlo⟩ := Octets.at_cons.mp hbytes
  have hhead := Labels.toNat_reference_head (k := target / 256) (by omega)
  have htop : (0xc0 ||| UInt8.ofNat (target / 256)) &&& 0xc0 = 0xc0 := by
    rw [Labels.and_c0_eq_c0, hhead]
    omega
  rw [decodeWireLoop, hhi.getElem?]
  simp only [htop, if_true, hlo.getElem?, Labels.target_reference hfit]
  rw [if_neg (show ¬(0xc0 : UInt8) = 0 by decide), if_neg (Nat.not_le.mpr hback)]

theorem decodeWireLoop_of_spells (h : Labels.Spells msg cur ls extra next)
    (hfuel : ls.length + extra < fuel)
    (htotal : total + (Labels.encode ls).length ≤ maxNameLen) (hhops : hops + extra ≤ maxHops) :
    decodeWireLoop maxHops msg fuel cur out nextOff hops total =
      .ok (out ++ Labels.encode (ls.map foldLabel), nextOff.getD next) := by
  induction h generalizing fuel out nextOff hops total with
  | root hzero =>
    obtain ⟨fuel, rfl⟩ := Nat.exists_eq_succ_of_ne_zero (Nat.ne_zero_of_lt hfuel)
    have hlen : ¬total + 1 > maxNameLen := Nat.not_lt.mpr htotal
    rw [Nat.succ_eq_add_one, decodeWireLoop, hzero.getElem?]
    simp [hlen, Labels.encode]
  | @label off hops' next' l ls hl hbytes _ ih =>
    obtain ⟨fuel, rfl⟩ := Nat.exists_eq_succ_of_ne_zero (Nat.ne_zero_of_lt hfuel)
    rw [Labels.length_encode_cons] at htotal
    rw [Nat.succ_eq_add_one,
      decodeWireLoop_label hl hbytes (by omega), ih (by simp at hfuel; omega) (by omega) hhops]
    simp [Labels.encode]
  | pointer hback hfit hbytes _ ih =>
    obtain ⟨fuel, rfl⟩ := Nat.exists_eq_succ_of_ne_zero (Nat.ne_zero_of_lt hfuel)
    rw [Nat.succ_eq_add_one, decodeWireLoop_pointer hback hfit hbytes, if_neg (by omega),
      ih (by omega) htotal (by omega)]
    rfl

theorem decodeWireLoop_of_spells_gt (h : Labels.Spells msg cur ls extra next)
    (htotal : total + (Labels.encode ls).length ≤ maxNameLen)
    (hhops : hops ≤ maxHops) (hextra : hops + extra > maxHops) :
    ∃ e, decodeWireLoop maxHops msg fuel cur out nextOff hops total = .error e := by
  induction h generalizing fuel out nextOff hops total with
  | root => omega
  | @label off hops' next' l ls hl hbytes _ ih =>
    cases fuel with
    | zero => exact ⟨_, rfl⟩
    | succ fuel =>
      rw [Labels.length_encode_cons] at htotal
      rw [decodeWireLoop_label hl hbytes (by omega)]
      exact ih (by omega) hhops hextra
  | pointer hback hfit hbytes _ ih =>
    cases fuel with
    | zero => exact ⟨_, rfl⟩
    | succ fuel =>
      rw [decodeWireLoop_pointer hback hfit hbytes]
      split
      · exact ⟨_, rfl⟩
      · exact ih htotal (by omega) (by omega)

private theorem spells_label {b : UInt8} (hb : msg[cur]? = some b) (htop : b &&& 0xc0 = 0) (hzero : ¬b.toNat = 0)
    (hend : ¬cur + 1 + b.toNat > msg.length) (hspells : Labels.Spells msg (cur + 1 + b.toNat) ls extra next) :
    ∃ l, Labels.Spells msg cur (l :: ls) extra next ∧ Labels.encode ((l :: ls).map foldLabel) =
      (b :: ((msg.drop (cur + 1)).take b.toNat).map foldByte) ++ Labels.encode (ls.map foldLabel) := by
  have hlen : ((msg.drop (cur + 1)).take b.toNat).length = b.toNat := by
    rw [length_take, length_drop]
    omega
  have hlabel : IsLabel ((msg.drop (cur + 1)).take b.toNat) :=
    ⟨by omega, by rw [hlen]; exact (Labels.and_c0_eq_zero b).mp htop⟩
  refine ⟨(msg.drop (cur + 1)).take b.toNat, .label hlabel ?_ ?_, ?_⟩
  · rw [hlen, UInt8.ofNat_toNat, Octets.at_cons]
    exact ⟨Octets.at_of_getElem? hb, take_prefix _ _⟩
  · rwa [hlen]
  · rw [map_cons, Labels.encode, length_foldLabel, hlen, UInt8.ofNat_toNat]
    rfl

theorem spells_of_decodeWireLoop (h : decodeWireLoop maxHops msg fuel cur out nextOff hops total = .ok (wire, next)) :
    ∃ ls extra inlineEnd, Labels.Spells msg cur ls extra inlineEnd ∧
      wire = out ++ Labels.encode (ls.map foldLabel) ∧ next = nextOff.getD inlineEnd ∧
      (hops ≤ maxHops → hops + extra ≤ maxHops) := by
  fun_induction decodeWireLoop maxHops msg fuel cur out nextOff hops total with
  | case4 _ cur out _ _ _ b hb _ _ hzero hlen =>
    cases h
    refine ⟨[], 0, cur + 1, .root ?_, rfl, rfl, id⟩
    have hb0 : b = 0 := UInt8.toNat_inj.mp hzero
    exact Octets.at_of_getElem? (hb0 ▸ hb)
  | case7 _ cur out nextOff hops _ b hb htop _ hzero hend _ ih =>
    obtain ⟨ls, extra, inlineEnd, hspells, rfl, hnext, hhops⟩ := ih h
    obtain ⟨l, hspells', hwire⟩ := spells_label hb htop hzero hend hspells
    exact ⟨l :: ls, extra, inlineEnd, hspells', by rw [hwire, append_assoc], hnext, hhops⟩
  | case11 _ cur out nextOff hops _ b hb _ htop lo hlo _ hback hhops' ih =>
    obtain ⟨ls, extra, inlineEnd, hspells, rfl, hnext, hhops⟩ := ih h
    refine ⟨ls, extra + 1, cur + 2, .pointer (Nat.not_le.mp hback) ?_ ?_ hspells, rfl, hnext, by omega⟩
    · exact Labels.target_lt b lo
    · rw [Labels.reference_target htop, Octets.at_cons]
      exact ⟨Octets.at_of_getElem? hb, Octets.at_of_getElem? hlo⟩
  | _ => cases h

theorem spells_of_decodeWireUncompressedLoop (h : decodeWireUncompressedLoop msg fuel cur out total = .ok (wire, next))
    :
    ∃ ls, Labels.Spells msg cur ls 0 next ∧ wire = out ++ Labels.encode (ls.map foldLabel) := by
  fun_induction decodeWireUncompressedLoop msg fuel cur out total with
  | case4 _ cur out _ b hb _ _ hzero hlen =>
    cases h
    have hb0 : b = 0 := UInt8.toNat_inj.mp hzero
    exact ⟨[], .root (Octets.at_of_getElem? (hb0 ▸ hb)), rfl⟩
  | case7 _ cur out _ b hb htop _ hzero hend _ ih =>
    obtain ⟨ls, hspells, rfl⟩ := ih h
    obtain ⟨l, hspells', hwire⟩ := spells_label hb htop hzero hend hspells
    exact ⟨l :: ls, hspells', by rw [hwire, append_assoc]⟩
  | _ => cases h

theorem decodeWireUncompressedLoop_of_at (hbytes : At msg cur (Labels.encode ls))
    (hls : ∀ l ∈ ls, IsLabel l) (hfuel : ls.length < fuel)
    (htotal : total + (Labels.encode ls).length ≤ maxNameLen) :
    decodeWireUncompressedLoop msg fuel cur out total =
      .ok (out ++ Labels.encode (ls.map foldLabel), cur + (Labels.encode ls).length) := by
  induction ls generalizing fuel cur out total with
  | nil =>
    obtain ⟨fuel, rfl⟩ := Nat.exists_eq_succ_of_ne_zero (Nat.ne_zero_of_lt hfuel)
    have hlen : ¬total + 1 > maxNameLen := Nat.not_lt.mpr htotal
    rw [Nat.succ_eq_add_one, decodeWireUncompressedLoop, At.getElem? hbytes]
    simp [hlen, Labels.encode]
  | cons l ls ih =>
    obtain ⟨fuel, rfl⟩ := Nat.exists_eq_succ_of_ne_zero (Nat.ne_zero_of_lt hfuel)
    have hl := hls l (.head _)
    have hpos := hl.1
    have hend := hbytes.end_le (Labels.encode_ne_nil _)
    rw [Labels.length_encode_cons] at htotal hend
    rw [Labels.encode, Octets.at_cons, Octets.at_append] at hbytes
    obtain ⟨hlen, hbody, hrest⟩ := hbytes
    rw [Nat.succ_eq_add_one, decodeWireUncompressedLoop, hlen.getElem?]
    simp only [hl.and_c0, hl.toNat_length, if_true]
    rw [if_neg (by omega), if_neg (by omega), if_neg (by omega), hbody.take_drop,
      ih hrest (fun k hk => hls k (.tail _ hk)) (by simpa using hfuel) (by omega), Labels.length_encode_cons]
    simp [Labels.encode, foldLabel, Nat.add_assoc]

end Spelled

namespace Name

variable {n : Name} {maxHops off hops next : Nat} {msg : Bytes}

theorem wellFormed (hn : n.isValid) : WellFormed n.wire := by
  refine n.inv.resolve_left fun hnil => ?_
  simp [isValid, hnil] at hn

theorem wire_eq_encode (hn : n.isValid) : n.wire = Labels.encode n.labels := by
  grind [wellFormed_iff_split, wellFormed, labels]

theorem appendWire_nil (n : Name) : n.appendWire [] = Labels.encode n.labels := by
  grind [appendWire, wire_eq_encode, labels, Labels.encode]

theorem isNameLabel_of_mem_labels (hl : l ∈ n.labels) : IsNameLabel l := by
  grind [labels, wellFormed_iff_split, wellFormed]

theorem length_wire_le (n : Name) : n.wire.length ≤ maxNameLen := by
  rcases n.inv with hnil | ⟨-, -, -, hlen⟩
  · simp [hnil]
  · exact hlen

theorem wireLen_le (n : Name) : n.wireLen ≤ maxNameLen := by
  rw [wireLen]
  split
  · exact length_wire_le n
  · decide

theorem decodeWire_of_spells_fold {ls : List Bytes} (hwire : n.wire = Labels.encode (ls.map foldLabel))
    (h : Labels.Spells msg off ls hops next) (hhops : hops ≤ maxHops) :
    decodeWire maxHops msg off = .ok (n, next) := by
  have hlength : (Labels.encode ls).length ≤ maxNameLen := by
    rw [← length_encode_map_foldLabel, ← hwire]
    exact n.length_wire_le
  have hlabels := Labels.length_lt_length_encode ls
  refine decodeWire_eq_ok.mpr ⟨Nat.lt_of_lt_of_le h.lt_next h.next_le, ?_⟩
  rw [decodeWireLoop_of_spells h (by omega) (by omega) (by omega), nil_append, ← hwire]
  rfl

theorem decodeWire_of_spells (hn : n.isValid) (h : Labels.Spells msg off n.labels hops next)
    (hhops : hops ≤ maxHops) : decodeWire maxHops msg off = .ok (n, next) := by
  refine decodeWire_of_spells_fold ?_ h hhops
  rw [map_foldLabel_eq fun l hl => isNameLabel_of_mem_labels hl, wire_eq_encode hn]

theorem decodeWire_of_spells_gt (hn : n.isValid) (h : Labels.Spells msg off n.labels hops next)
    (hhops : hops > maxHops) : ∃ e, decodeWire maxHops msg off = .error e := by
  have hloop : ∃ e, decodeWireLoop maxHops msg (maxNameLen + maxHops + 2) off [] none 0 0 = .error e := by
    refine decodeWireLoop_of_spells_gt h ?_ (by omega) (by omega)
    rw [← wire_eq_encode hn, Nat.zero_add]
    exact n.length_wire_le
  obtain ⟨e, he⟩ := hloop
  cases hdecode : decodeWire maxHops msg off with
  | error e' => exact ⟨e', rfl⟩
  | ok found => exact absurd (he.symm.trans (decodeWire_eq_ok.mp hdecode).2) nofun

theorem decodeWireUncompressed_of_at_fold {ls : List Bytes} (hls : ∀ l ∈ ls, IsLabel l)
    (hwire : n.wire = Labels.encode (ls.map foldLabel)) (h : At msg off (Labels.encode ls)) :
    decodeWireUncompressed msg off = .ok (n, off + (Labels.encode ls).length) := by
  have hend := h.end_le (Labels.encode_ne_nil _)
  have hpos := length_pos_iff.mpr (Labels.encode_ne_nil ls)
  have hlabels := Labels.length_lt_length_encode ls
  have hlength : (Labels.encode ls).length ≤ maxNameLen := by
    rw [← length_encode_map_foldLabel, ← hwire]
    exact n.length_wire_le
  refine decodeWireUncompressed_eq_ok.mpr ⟨by omega, ?_⟩
  rw [decodeWireUncompressedLoop_of_at h hls (by omega) (by omega), nil_append, ← hwire]

theorem decodeWireUncompressed_of_at (hn : n.isValid) (h : At msg off n.wire) :
    decodeWireUncompressed msg off = .ok (n, off + n.wire.length) := by
  rw [wire_eq_encode hn] at h ⊢
  refine decodeWireUncompressed_of_at_fold (fun l hl => (isNameLabel_of_mem_labels hl).1) ?_ h
  rw [map_foldLabel_eq fun l hl => isNameLabel_of_mem_labels hl, wire_eq_encode hn]

end Name

theorem WellFormed.ne_nil (h : WellFormed wire) : wire ≠ [] := by
  obtain ⟨ls, -, rfl, -⟩ := h
  exact Labels.encode_ne_nil ls

theorem WellFormed.isValid (h : WellFormed n.wire) : n.isValid := by
  simpa [Name.isValid] using length_pos_iff.mpr h.ne_nil

theorem decodeWire_isValid (h : decodeWire maxHops msg off = .ok (n, next)) : n.isValid :=
  (decodeWireLoop_wellFormed outputOk_nil (decodeWire_eq_ok.mp h).2).isValid

theorem spells_of_decodeWire (h : decodeWire maxHops msg off = .ok (n, next)) :
    ∃ ls hops, Labels.Spells msg off ls hops next ∧ n.wire = Labels.encode (ls.map foldLabel) ∧
      hops ≤ maxHops := by
  grind [spells_of_decodeWireLoop, decodeWire]

theorem spells_of_decodeWireUncompressed (h : decodeWireUncompressed msg off = .ok (n, next)) :
    ∃ ls, Labels.Spells msg off ls 0 next ∧ n.wire = Labels.encode (ls.map foldLabel) :=
  spells_of_decodeWireUncompressedLoop (decodeWireUncompressed_eq_ok.mp h).2

theorem decodeWireUncompressed_iff :
    decodeWireUncompressed msg off = .ok (n, next) ↔ ∃ ls, (∀ l ∈ ls, IsLabel l) ∧
      n.wire = Labels.encode (ls.map foldLabel) ∧ At msg off (Labels.encode ls) ∧
      next = off + (Labels.encode ls).length := by
  constructor
  · intro h
    obtain ⟨ls, hspells, hwire⟩ := spells_of_decodeWireUncompressed h
    rcases hspells.inline with ⟨-, hat, hnext⟩ | ⟨hpos, -⟩
    · exact ⟨ls, hspells.isLabel, hwire, hat, hnext⟩
    · exact absurd hpos (Nat.lt_irrefl 0)
  · rintro ⟨ls, hls, hwire, hat, rfl⟩
    exact Name.decodeWireUncompressed_of_at_fold hls hwire hat

section Bounds

variable {maxHops end_ off next : Nat} {msg : Bytes} {n : Name}

theorem decodeWireUncompressed_take : decodeWireUncompressed (msg.take end_) off = .ok (n, next) ↔
    decodeWireUncompressed msg off = .ok (n, next) ∧ next ≤ end_ := by
  rw [decodeWireUncompressed_iff, decodeWireUncompressed_iff]
  constructor
  · rintro ⟨ls, hls, hwire, hat, rfl⟩
    have hend := hat.end_le (Labels.encode_ne_nil ls)
    rw [length_take] at hend
    exact ⟨⟨ls, hls, hwire, hat.mono <| take_prefix _ _, rfl⟩, by omega⟩
  · rintro ⟨⟨ls, hls, hwire, hat, rfl⟩, hend⟩
    exact ⟨ls, hls, hwire, hat.take hend, rfl⟩

theorem bounds_of_decodeWire (h : decodeWire maxHops msg off = .ok (n, next)) : off < next ∧ next ≤ msg.length := by
  obtain ⟨ls, hops, hspells, -, -⟩ := spells_of_decodeWire h
  exact ⟨hspells.lt_next, hspells.next_le⟩

theorem bounds_of_decodeWireUncompressed (h : decodeWireUncompressed msg off = .ok (n, next)) :
    off < next ∧ next ≤ msg.length := by
  obtain ⟨ls, hspells, -⟩ := spells_of_decodeWireUncompressed h
  exact ⟨hspells.lt_next, hspells.next_le⟩

end Bounds

theorem decodeWireUncompressed_isValid (h : decodeWireUncompressed msg off = .ok (n, next)) : n.isValid :=
  (decodeWireUncompressedLoop_wellFormed outputOk_nil (decodeWireUncompressed_eq_ok.mp h).2).isValid

theorem Name.length_wire_pos (hn : n.isValid) : 0 < n.wire.length := by
  simpa [Name.isValid] using hn

/-! ### Short names

The names of the samples, by their labels. -/

namespace Name.Short

def a : Name := ⟨[1, 0x61, 0], .inr (by decide)⟩
def b : Name := ⟨[1, 0x62, 0], .inr (by decide)⟩
def ba : Name := ⟨[1, 0x62, 1, 0x61, 0], .inr (by decide)⟩
def ca : Name := ⟨[1, 0x63, 1, 0x61, 0], .inr (by decide)⟩
def da : Name := ⟨[1, 0x64, 1, 0x61, 0], .inr (by decide)⟩
def xa : Name := ⟨[1, 0x78, 1, 0x61, 0], .inr (by decide)⟩
def starA : Name := ⟨[1, 0x2a, 1, 0x61, 0], .inr (by decide)⟩
def cba : Name := ⟨[1, 0x63, 1, 0x62, 1, 0x61, 0], .inr (by decide)⟩
def dba : Name := ⟨[1, 0x64, 1, 0x62, 1, 0x61, 0], .inr (by decide)⟩
def starBA : Name := ⟨[1, 0x2a, 1, 0x62, 1, 0x61, 0], .inr (by decide)⟩
def k : Name := ⟨Labels.encode [[0x6b]], .inr (by decide)⟩

end Name.Short

end Acidns
