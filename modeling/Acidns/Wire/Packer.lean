import Acidns.Lib.Parser
import Acidns.Wire.Name

/-!
# Packer and unpacker

`wirebb/wire.go`. The packer accumulates a message and remembers at which offset it emitted each name suffix, so that a later name can end in a pointer. The unpacker is a cursor over a message; its operations are parsers whose environment is the bound on pointer hops.
-/

namespace Acidns

open Octets (At bigEndian ofBigEndian)

variable {n : Name} {post : Name → Unpacker → Prop}

/-! ### Packing -/

/-- A message under construction. The compression map lists the newest entry of a suffix first. -/
structure Packer where
  buf : Bytes
  comp : List (Bytes × Nat)

namespace Packer

def new : Packer := ⟨[], []⟩

def len (p : Packer) : Nat := p.buf.length

def raw (p : Packer) (bs : Bytes) : Packer := { p with buf := p.buf ++ bs }

def uint8 (p : Packer) (v : UInt8) : Packer := p.raw [v]

def uint16 (p : Packer) (v : UInt16) : Packer := p.raw (bigEndian 2 v.toNat)

def uint32 (p : Packer) (v : UInt32) : Packer := p.raw (bigEndian 4 v.toNat)

/-- A character string. One that is too long leaves the packer as it is; the callers discard the error. -/
def charString (p : Packer) (s : Bytes) : Packer :=
  if s.length > 255 then p else p.raw (UInt8.ofNat s.length :: s)

/-- The offset a pointer to `suffix` would hold, if the suffix may be replaced by one. -/
def pointerTo (p : Packer) (suffix : Bytes) : Option Nat :=
  (p.comp.lookup suffix).filter fun ptr => ptr < 2 ^ 14 ∧ p.buf.length < 2 ^ 14

/-- Remember that `suffix` is about to be emitted at the end of the buffer. -/
def remember (p : Packer) (suffix : Bytes) : Packer :=
  if p.buf.length < 2 ^ 14 then { p with comp := (suffix, p.buf.length) :: p.comp } else p

/-- Each suffix is looked up and remembered in turn; a known one ends the name by a pointer. -/
def nameLoop : (fuel : Nat) → (wire : Bytes) → Packer → Packer
  | 0, _, p => p
  | _ + 1, [], p => p
  | fuel + 1, l :: rest, p =>
    if l = 0 then p.raw [0]
    else
      match p.pointerTo (l :: rest) with
      | some ptr => p.raw (Labels.reference ptr)
      | none => nameLoop fuel (rest.drop l.toNat) ((p.remember (l :: rest)).raw (l :: rest.take l.toNat))

def nameWire (n : Name) : Bytes := if n.isValid then n.appendWire [] else [0]

/-- A name that may end in a pointer. -/
def name (p : Packer) (n : Name) : Packer := nameLoop (nameWire n).length (nameWire n) p

/-- A name in full, not remembered for later pointers. -/
def nameUncompressed (p : Packer) (n : Name) : Packer := { p with buf := n.appendWire p.buf }

end Packer

/-! ### Unpacking -/

/-- A position in a message. -/
abbrev Unpacker := Cursor

/-- A reader of the message under a bound on pointers. -/
abbrev Decoder := Parser Nat WireError

namespace Decoder

open Parser

/-- Exactly `n` bytes, as an array type of the source holds them. -/
abbrev FixedBytes (n : Nat) := { bs : Bytes // bs.length = n }

/-- A string with its length in one byte. -/
abbrev CharString := { bs : Bytes // bs.length ≤ 255 }

def truncated (text : String) : WireError := ⟨.truncated, text⟩

def uint8 : Decoder UInt8 := do
  let b ← take 1 fun off => truncated s!"uint8 at off {off}"
  pure (UInt8.ofNat (ofBigEndian b.val))

def uint16 : Decoder UInt16 := do
  let b ← take 2 fun off => truncated s!"uint16 at off {off}"
  pure (UInt16.ofNat (ofBigEndian b.val))

def uint32 : Decoder UInt32 := do
  let b ← take 4 fun off => truncated s!"uint32 at off {off}"
  pure (UInt32.ofNat (ofBigEndian b.val))

/-- Exactly `n` bytes, or a truncation error. -/
def fixedBytes (n : Nat) : Decoder (FixedBytes n) :=
  take n fun off => truncated s!"{n} bytes at off {off}"

/-- `Bytes`: the callers compute `n` by subtraction, so it may be negative. -/
def bytes (n : Int) : Decoder Bytes := do
  let off ← offset
  failIf (n < 0) (truncated s!"{n} bytes at off {off}")
  let b ← fixedBytes n.toNat
  pure b.val

/-- The bytes behind the position; negative when it is past the end. -/
def remaining : Decoder Int := do
  let msg ← message
  let off ← offset
  pure (msg.length - off)

def charStringBody (l : UInt8) : Decoder CharString := do
  let b ← fixedBytes l.toNat
  pure ⟨b.val, by have hl := l.toNat_lt; have hb := b.property; omega⟩

/-- A character string that must end at or before `end_`. -/
def charStringInRange (end_ : Nat) : Decoder CharString := do
  let msg ← message
  let end_ := min end_ msg.length
  let off ← offset
  failIf (off ≥ end_) (truncated "")
  let l ← uint8
  let off ← offset
  failIf (off + l.toNat > end_) (truncated "")
  charStringBody l

/-- A name, with the position moved behind its first pointer. -/
def name : Decoder Name := do
  let msg ← message
  let off ← offset
  let maxHops ← environment
  let (n, next) ← ofExcept (decodeWire maxHops msg off)
  setOffset next
  pure n

/-- A compressed name whose inline part must end at or before `end_`. -/
def nameInRange (end_ : Nat) : Decoder Name := do
  let msg ← message
  let end_ := min end_ msg.length
  let off ← offset
  failIf (off > end_) (truncated "")
  let maxHops ← environment
  let (n, next) ← ofExcept (decodeWire maxHops msg off)
  failIf (next > end_) (truncated "")
  setOffset next
  pure n

/-- A name without pointers within `rdlength` bytes; a negative or oversized `rdlength` stands for the rest. -/
def uncompressedName (rdlength : Int) : Decoder Name := do
  let msg ← message
  let off ← offset
  let end_ := if rdlength < 0 ∨ off + rdlength > msg.length then msg.length else off + rdlength.toNat
  failIf (off > end_) (truncated "")
  let (n, next) ← ofExcept (decodeWireUncompressed (msg.take end_) off)
  setOffset next
  pure n

/-! ### What the unpacker reads back

The offsets and checks of the source are resolved by `simp`, and what is left of a decoder is where its fields stand. -/

theorem toNat_ofNat8 {n : Nat} (hn : n ≤ 255) : (UInt8.ofNat n).toNat = n := by
  rw [UInt8.toNat_ofNat']
  omega

theorem toNat_ofNat16 {n : Nat} (hn : n ≤ 65535) : (UInt16.ofNat n).toNat = n := by
  rw [UInt16.toNat_ofNat']
  omega

section Reads

variable {maxHops off off' next hops end_ : Nat} {msg bs : Bytes}

theorem reads_number_iff {α : Type} {width : Nat} {ofNat : Nat → α} {toNat : α → Nat} {onShort : Nat → WireError}
    {v : α} (hwidth : 0 < width) (hlt : ∀ v, toNat v < 256 ^ width) (hof : ∀ v, ofNat (toNat v) = v)
    (hto : ∀ n < 256 ^ width, toNat (ofNat n) = n) :
    (take width onShort >>= fun b => pure (ofNat (ofBigEndian b.val)) : Decoder α).Reads maxHops msg off v off' ↔
      At msg off (bigEndian width (toNat v)) ∧ off' = off + width := by
  simp only [reads_bind_iff, reads_take_iff, reads_pure_iff]
  constructor
  · grind [Octets.ofBigEndian_lt, Octets.bigEndian_ofBigEndian]
  · rintro ⟨hat, rfl⟩
    have hlen := Octets.length_bigEndian width (toNat v)
    have hend := hat.end_le (List.ne_nil_of_length_pos (by omega))
    rw [hlen] at hend
    refine ⟨⟨_, hlen⟩, _, ⟨hat, hend, rfl⟩, ?_, rfl⟩
    rw [Octets.ofBigEndian_bigEndian, Nat.mod_eq_of_lt (hlt v), hof]

@[simp] theorem reads_uint8_iff {v : UInt8} :
    uint8.Reads maxHops msg off v off' ↔ At msg off [v] ∧ off' = off + 1 := by
  have hbyte : bigEndian 1 v.toNat = [v] := by simp [bigEndian]
  rw [← hbyte]
  exact reads_number_iff (by decide) UInt8.toNat_lt (fun _ => UInt8.ofNat_toNat) fun _ hn => UInt8.toNat_ofNat_of_lt hn

variable {v : UInt16} {rdlength : Int} {c : Unpacker}

@[simp] theorem reads_uint16_iff :
    uint16.Reads maxHops msg off v off' ↔ At msg off (bigEndian 2 v.toNat) ∧ off' = off + 2 :=
  reads_number_iff (by decide) UInt16.toNat_lt (fun _ => UInt16.ofNat_toNat) fun _ hn => UInt16.toNat_ofNat_of_lt hn

@[simp] theorem reads_uint32_iff {v : UInt32} :
    uint32.Reads maxHops msg off v off' ↔ At msg off (bigEndian 4 v.toNat) ∧ off' = off + 4 :=
  reads_number_iff (by decide) UInt32.toNat_lt (fun _ => UInt32.ofNat_toNat) fun _ hn => UInt32.toNat_ofNat_of_lt hn

@[simp] theorem reads_fixedBytes_iff {n : Nat} {b : FixedBytes n} : (fixedBytes n).Reads maxHops msg off b off' ↔
    At msg off b.val ∧ off + n ≤ msg.length ∧ off' = off + n :=
  reads_take_iff

instance : Local uint8 := by unfold uint8; infer_instance
instance : Local uint16 := by unfold uint16; infer_instance
instance : Local uint32 := by unfold uint32; infer_instance
instance (n : Nat) : Local (fixedBytes n) := by unfold fixedBytes; infer_instance
instance (n : Int) : Local (bytes n) := by unfold bytes; infer_instance
instance (l : UInt8) : Local (charStringBody l) := by unfold charStringBody; infer_instance

@[simp] theorem reads_bytes_iff {n : Int} : (bytes n).Reads maxHops msg off bs off' ↔
    At msg off bs ∧ n = bs.length ∧ off + bs.length ≤ msg.length ∧ off' = off + bs.length := by
  simp only [bytes, reads_bind_iff, reads_offset_iff, reads_failIf_iff, reads_fixedBytes_iff, reads_pure_iff]
  constructor
  · grind
  · rintro ⟨hat, rfl, hfit, rfl⟩
    exact ⟨_, _, ⟨rfl, rfl⟩, (), _, ⟨by omega, rfl⟩, ⟨bs, rfl⟩, _, ⟨hat, hfit, rfl⟩, rfl, rfl⟩

@[simp] theorem reads_charStringBody_iff {s : CharString} {l : UInt8} :
    (charStringBody l).Reads maxHops msg off s off' ↔
      At msg off s.val ∧ l.toNat = s.val.length ∧ off + s.val.length ≤ msg.length ∧ off' = off + s.val.length := by
  simp only [charStringBody, reads_bind_iff, reads_fixedBytes_iff, reads_pure_iff]
  constructor
  · grind
  · rintro ⟨hat, hl, hfit, rfl⟩
    exact ⟨⟨s.val, hl.symm⟩, _, ⟨hat, by omega, rfl⟩, rfl, by rw [hl]⟩

@[simp] theorem reads_charStringInRange_iff {s : CharString} : (charStringInRange end_).Reads maxHops msg off s off' ↔
    At msg off (UInt8.ofNat s.val.length :: s.val) ∧ off + (1 + s.val.length) ≤ end_ ∧
      off' = off + (1 + s.val.length) := by
  have hbyte := toNat_ofNat8 s.property
  simp only [charStringInRange, reads_bind_iff, reads_message_iff, reads_offset_iff, reads_failIf_iff,
    reads_uint8_iff, reads_charStringBody_iff]
  constructor
  · rintro ⟨_, _, ⟨rfl, rfl⟩, _, _, ⟨rfl, rfl⟩, _, _, ⟨-, rfl⟩, l, _, ⟨hat, rfl⟩, _, _, ⟨rfl, rfl⟩, _, _, ⟨hle, rfl⟩,
      hbody, hl, hfit, rfl⟩
    obtain rfl : l = UInt8.ofNat s.val.length := UInt8.toNat_inj.mp (hl.trans hbyte.symm)
    exact ⟨Octets.at_cons.mpr ⟨hat, hbody⟩, by omega, by omega⟩
  · rintro ⟨hat, hle, rfl⟩
    have hmsg := hat.end_le (by simp)
    rw [List.length_cons] at hmsg
    obtain ⟨hlen, hbody⟩ := Octets.at_cons.mp hat
    exact ⟨_, _, ⟨rfl, rfl⟩, _, _, ⟨rfl, rfl⟩, (), _, ⟨by omega, rfl⟩, _, _, ⟨hlen, rfl⟩, _, _, ⟨rfl, rfl⟩, (), _,
      ⟨by omega, rfl⟩, hbody, hbyte, by omega, by omega⟩

@[simp] theorem reads_name_iff : name.Reads maxHops msg off n next ↔ decodeWire maxHops msg off = .ok (n, next) := by
  simp [name]

@[simp] theorem reads_nameInRange_iff : (nameInRange end_).Reads maxHops msg off n next ↔
    decodeWire maxHops msg off = .ok (n, next) ∧ next ≤ end_ := by
  simp only [nameInRange, reads_bind_iff, reads_message_iff, reads_offset_iff, reads_failIf_iff, reads_ofExcept_iff,
    reads_setOffset_iff, reads_pure_iff, reads_environment_iff]
  constructor
  · grind
  · rintro ⟨hdecode, hle⟩
    obtain ⟨hlt, hlen⟩ := bounds_of_decodeWire hdecode
    exact ⟨_, _, ⟨rfl, rfl⟩, _, _, ⟨rfl, rfl⟩, (), _, ⟨by omega, rfl⟩, _, _, ⟨rfl, rfl⟩, (n, next), _,
      ⟨hdecode, rfl⟩, (), _, ⟨by omega, rfl⟩, (), _, rfl, rfl, rfl⟩

@[simp] theorem reads_uncompressedName_iff :
    (uncompressedName rdlength).Reads maxHops msg off n next ↔
      decodeWireUncompressed msg off = .ok (n, next) ∧ (0 ≤ rdlength → next ≤ off + rdlength) := by
  simp only [uncompressedName, reads_bind_iff, reads_message_iff, reads_offset_iff, reads_failIf_iff,
    reads_ofExcept_iff, reads_setOffset_iff, reads_pure_iff]
  constructor
  · rintro ⟨_, _, ⟨rfl, rfl⟩, _, _, ⟨rfl, rfl⟩, _, _, ⟨-, rfl⟩, ⟨n', next'⟩, _, ⟨hdecode, rfl⟩, _, _, rfl, rfl, rfl⟩
    obtain ⟨hdecode, hle⟩ := decodeWireUncompressed_take.mp hdecode
    refine ⟨hdecode, fun hpos => ?_⟩
    dsimp only
    split at hle <;> omega
  · rintro ⟨hdecode, hle⟩
    obtain ⟨hlt, hlen⟩ := bounds_of_decodeWireUncompressed hdecode
    have hend : next ≤ if rdlength < 0 ∨ (off : Int) + rdlength > msg.length then msg.length
        else off + rdlength.toNat := by
      split <;> omega
    exact ⟨_, _, ⟨rfl, rfl⟩, _, _, ⟨rfl, rfl⟩, (), _, ⟨by omega, rfl⟩, (n, next), _,
      ⟨decodeWireUncompressed_take.mpr ⟨hdecode, hend⟩, rfl⟩, (), _, rfl, rfl, rfl⟩

instance : KeepsMessage name := by dsimp only [name]; infer_instance
instance (end_ : Nat) : KeepsMessage (nameInRange end_) := by dsimp only [nameInRange]; infer_instance

instance (rdlength : Int) : Local (uncompressedName rdlength) where
  toKeepsMessage := by dsimp only [uncompressedName]; infer_instance
  confined env msg cut off := by
    refine ⟨fun n next h => ⟨?_, trivial⟩, fun n next h => ?_⟩
    · obtain ⟨hdecode, hle⟩ := reads_uncompressedName_iff.mp h
      exact reads_uncompressedName_iff.mpr ⟨(decodeWireUncompressed_take.mp hdecode).1, hle⟩
    · obtain ⟨hdecode, hle⟩ := reads_uncompressedName_iff.mp h
      refine ⟨Nat.le_of_lt (bounds_of_decodeWireUncompressed hdecode).1, fun hcut _ => ?_⟩
      exact reads_uncompressedName_iff.mpr ⟨decodeWireUncompressed_take.mpr ⟨hdecode, hcut⟩, hle⟩

instance (end_ : Nat) : Local (charStringInRange end_) where
  toKeepsMessage := by dsimp only [charStringInRange]; infer_instance
  confined env msg cut off := by
    refine ⟨fun s off' h => ⟨?_, trivial⟩, fun s off' h => ?_⟩
    · obtain ⟨hat, hle⟩ := reads_charStringInRange_iff.mp h
      exact reads_charStringInRange_iff.mpr ⟨hat.mono <| List.take_prefix _ _, hle⟩
    · obtain ⟨hat, hle, rfl⟩ := reads_charStringInRange_iff.mp h
      refine ⟨by omega, fun hcut _ => reads_charStringInRange_iff.mpr ⟨hat.take ?_, hle, rfl⟩⟩
      rw [List.length_cons]
      omega

section Bind

variable {β : Type} {b : β}

@[simp] theorem reads_uint8_bind {f : UInt8 → Decoder β} : (uint8 >>= f).Reads maxHops msg off b off' ↔
    ∃ v, At msg off [v] ∧ (f v).Reads maxHops msg (off + 1) b off' := by
  simp

@[simp] theorem reads_uint16_bind {f : UInt16 → Decoder β} : (uint16 >>= f).Reads maxHops msg off b off' ↔
    ∃ v, At msg off (bigEndian 2 v.toNat) ∧ (f v).Reads maxHops msg (off + 2) b off' := by
  simp

@[simp] theorem reads_uint32_bind {f : UInt32 → Decoder β} : (uint32 >>= f).Reads maxHops msg off b off' ↔
    ∃ v, At msg off (bigEndian 4 v.toNat) ∧ (f v).Reads maxHops msg (off + 4) b off' := by
  simp

@[simp] theorem reads_fixedBytes_bind {n : Nat} {f : FixedBytes n → Decoder β} :
    (fixedBytes n >>= f).Reads maxHops msg off b off' ↔
      ∃ bs, (At msg off bs.val ∧ off + n ≤ msg.length) ∧ (f bs).Reads maxHops msg (off + n) b off' := by
  simp [and_assoc]

@[simp] theorem reads_bytes_bind {n : Int} {f : Bytes → Decoder β} : (bytes n >>= f).Reads maxHops msg off b off' ↔
    ∃ bs, (At msg off bs ∧ n = bs.length ∧ off + bs.length ≤ msg.length) ∧
      (f bs).Reads maxHops msg (off + bs.length) b off' := by
  simp [and_assoc]

@[simp] theorem reads_charStringInRange_bind {f : CharString → Decoder β} :
    (charStringInRange end_ >>= f).Reads maxHops msg off b off' ↔
      ∃ s, (At msg off (UInt8.ofNat s.val.length :: s.val) ∧ off + (1 + s.val.length) ≤ end_) ∧
        (f s).Reads maxHops msg (off + (1 + s.val.length)) b off' := by
  simp [and_assoc]

@[simp] theorem reads_nameInRange_bind {f : Name → Decoder β} :
    (nameInRange end_ >>= f).Reads maxHops msg off b off' ↔
      ∃ n next, (decodeWire maxHops msg off = .ok (n, next) ∧ next ≤ end_) ∧ (f n).Reads maxHops msg next b off' := by
  simp

@[simp] theorem reads_uncompressedName_bind {rdlength : Int} {f : Name → Decoder β} :
    (uncompressedName rdlength >>= f).Reads maxHops msg off b off' ↔
      ∃ n next, (decodeWireUncompressed msg off = .ok (n, next) ∧ (0 ≤ rdlength → next ≤ off + rdlength)) ∧
        (f n).Reads maxHops msg next b off' := by
  simp

end Bind

theorem reads_uint8 {v : UInt8} (h : At msg off [v]) : uint8.Reads maxHops msg off v (off + 1) :=
  reads_uint8_iff.mpr ⟨h, rfl⟩

theorem reads_uint16 (h : At msg off (bigEndian 2 v.toNat)) :
    uint16.Reads maxHops msg off v (off + 2) :=
  reads_uint16_iff.mpr ⟨h, rfl⟩

theorem reads_uint32 {v : UInt32} (h : At msg off (bigEndian 4 v.toNat)) :
    uint32.Reads maxHops msg off v (off + 4) :=
  reads_uint32_iff.mpr ⟨h, rfl⟩

theorem reads_bytes {n : Int} (h : At msg off bs) (hn : n = bs.length)
    (hend : off + bs.length ≤ msg.length) : (bytes n).Reads maxHops msg off bs (off + bs.length) :=
  reads_bytes_iff.mpr ⟨h, hn, hend, rfl⟩

section

variable (hn : n.isValid) (h : Labels.Spells msg off n.labels hops next)

include hn h

theorem reads_name (hhops : hops ≤ maxHops) : name.Reads maxHops msg off n next :=
  reads_name_iff.mpr (Name.decodeWire_of_spells hn h hhops)

theorem reads_nameInRange (hhops : hops ≤ maxHops) (hend : next ≤ end_) :
    (nameInRange end_).Reads maxHops msg off n next :=
  reads_nameInRange_iff.mpr ⟨Name.decodeWire_of_spells hn h hhops, hend⟩

theorem fails_name (hhops : hops > maxHops) : name.Fails maxHops ⟨msg, off⟩ := by
  obtain ⟨e, he⟩ := Name.decodeWire_of_spells_gt hn h hhops
  exact fails_of_reads (by simp [he])

theorem fails_nameInRange (hhops : hops > maxHops) : (nameInRange end_).Fails maxHops ⟨msg, off⟩ := by
  obtain ⟨e, he⟩ := Name.decodeWire_of_spells_gt hn h hhops
  exact fails_of_reads (by simp [he])

end

theorem reads_uncompressedName (hn : n.isValid) (h : At msg off n.wire)
    (hlen : n.wire.length ≤ rdlength) :
    (uncompressedName rdlength).Reads maxHops msg off n (off + n.wire.length) :=
  reads_uncompressedName_iff.mpr ⟨Name.decodeWireUncompressed_of_at hn h, fun _ => by omega⟩

theorem ensures_uint16 {post : UInt16 → Unpacker → Prop} (h : ∀ v, post v ⟨c.msg, c.off + 2⟩) :
    uint16.Ensures maxHops c post :=
  ensures_of_reads fun v _ hread => (reads_uint16_iff.mp hread).2 ▸ h v

theorem ensures_uint32 {post : UInt32 → Unpacker → Prop} (h : ∀ v, post v ⟨c.msg, c.off + 4⟩) :
    uint32.Ensures maxHops c post :=
  ensures_of_reads fun v _ hread => (reads_uint32_iff.mp hread).2 ▸ h v

theorem ensures_name (h : ∀ n next, n.isValid → post n ⟨c.msg, next⟩) : name.Ensures maxHops c post :=
  ensures_of_reads fun n next hread => h n next (decodeWire_isValid (reads_name_iff.mp hread))

theorem ensures_uncompressedName :
    (uncompressedName rdlength).Ensures maxHops c fun n _ => n.isValid :=
  ensures_of_reads fun _ _ h => decodeWireUncompressed_isValid (reads_uncompressedName_iff.mp h).1

end Reads

end Decoder

end Acidns
