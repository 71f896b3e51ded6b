import Acidns.Wire.Layout
import Acidns.Wire.RRType

/-!
# Addresses, names and character strings

The rdata of `addr.go`, `name.go`, `mx.go`, `txt.go`, `spf.go`, `resinfo.go`, `soa.go`, `hinfo.go`, `dname.go`, `kx.go`, `srv.go`, `rfc1183.go`, `nsap.go`, `openpgpkey.go`, `dhcid.go`, `eui.go` and `naptr.go`.

For each payload there is the list of packer calls of its `Pack` method and its decoder, then the fact that the two fit together. Types whose codecs differ only in a label or a length share one definition.
-/

namespace Acidns

open Parser Decoder
open Octets (At)

def invalidRData (text : String) : WireError := ⟨.invalidRData, text⟩

/-- Nanoseconds, as `time.Duration` counts them. -/
abbrev Duration := Int

def second : Duration := 1000000000

/-- A span as whole seconds in a 32-bit field, `uint32(d / time.Second)`. -/
def Duration.seconds32 (d : Duration) : UInt32 := UInt32.ofNat (d.tdiv second % 2 ^ 32).toNat

def Duration.ofSeconds32 (v : UInt32) : Duration := v.toNat * second

theorem Duration.seconds32_ofSeconds32 (v : UInt32) : seconds32 (ofSeconds32 v) = v := by
  have hdiv : (ofSeconds32 v).tdiv second = v.toNat := Int.mul_tdiv_cancel _ (by decide)
  have hlt := v.toNat_lt
  rw [seconds32, hdiv, Int.emod_eq_of_lt (by omega) (by omega), Int.toNat_natCast, UInt32.ofNat_toNat]

/-- In a window of `rdlen` bytes the decoder reads back what was packed, and what it returns meets the conditions under
which that holds. -/
structure Codec {α : Type} (ops : α → List PackOp) (unpack : Nat → Decoder α) (Normal : α → Prop) : Prop where
  reads : ∀ {maxHops off rdlen msg hops r}, Normal r → Laid msg off (ops r) hops (off + rdlen) →
    (∀ hop ∈ hops, hop ≤ maxHops) → off + rdlen ≤ msg.length →
      (unpack rdlen).Reads maxHops msg off r (off + rdlen)
  normal : ∀ {maxHops off off' rdlen msg r}, 0 < rdlen → (unpack rdlen).Reads maxHops msg off r off' → Normal r

section Families

variable {maxHops off rdlen : Nat} {msg : Bytes} {hops : List Nat}

/-! ### Fixed-length payloads -/

/-- `unpackA`, `unpackAAAA`, `unpackEUI48`, `unpackEUI64`: exactly `n` bytes. -/
def unpackFixed (label : String) (n rdlen : Nat) : Decoder (FixedBytes n) := do
  failIf (rdlen ≠ n) (invalidRData s!"{label} rdlen={rdlen}, want {n}")
  fixedBytes n

def unpackA := unpackFixed "A" 4
def unpackAAAA := unpackFixed "AAAA" 16
def unpackEUI48 := unpackFixed "EUI48" 6
def unpackEUI64 := unpackFixed "EUI64" 8

theorem codec_unpackFixed {label : String} {n : Nat} :
    Codec (fun b : FixedBytes n => [.raw b.val]) (unpackFixed label n) fun _ => True where
  reads {_ _ _ _ _ b} _ h _ hend := by
    have hlen := b.property
    simp_all [unpackFixed]
  normal _ _ := trivial

/-! ### Opaque payloads -/

/-- `unpackNSAP`, `unpackOPENPGPKEY`, `unpackDHCID` and unknown types: the whole window. -/
def unpackOpaque (rdlen : Nat) : Decoder Bytes := bytes rdlen

def unpackNSAP := unpackOpaque
def unpackOPENPGPKEY := unpackOpaque
def unpackDHCID := unpackOpaque

theorem codec_unpackOpaque : Codec (fun bs => [.raw bs]) unpackOpaque (· ≠ []) where
  reads _ h _ hend := by
    simp at h
    simp [unpackOpaque, h]
    omega
  normal hpos h := by
    simp [unpackOpaque] at h
    exact List.ne_nil_of_length_pos (by omega)

/-! ### A compressed name -/

/-- `unpackCNAME`, `unpackNS`, `unpackPTR`, `unpackNSAPPTR`: one compressed name. -/
def unpackTarget (rdlen : Nat) : Decoder Name := do
  let off ← offset
  nameInRange (off + rdlen)

def unpackCNAME := unpackTarget
def unpackNS := unpackTarget
def unpackPTR := unpackTarget
def unpackNSAPPTR := unpackTarget

theorem codec_unpackTarget : Codec (fun n => [.name n]) unpackTarget (·.isValid) where
  reads {_ _ _ _ _ n} hn h hhops _ := by
    obtain ⟨hop, rest, next, rfl, hname, hnil⟩ := laid_name.mp h
    obtain ⟨-, rfl⟩ := laid_nil.mp hnil
    simp [unpackTarget, Name.decodeWire_of_spells hn hname (hhops hop (.head _))]
  normal _ h := by
    simp [unpackTarget] at h
    exact decodeWire_isValid h.1

theorem fails_unpackTarget {n : Name} (hn : n.isValid) (h : Laid msg off [.name n] hops (off + rdlen))
    (hhops : ∃ hop ∈ hops, hop > maxHops) : (unpackTarget rdlen).Fails maxHops ⟨msg, off⟩ := by
  obtain ⟨hop, rest, next, rfl, hname, hnil⟩ := laid_name.mp h
  obtain ⟨rfl, rfl⟩ := laid_nil.mp hnil
  obtain ⟨k, hk, hgt⟩ := hhops
  obtain rfl := List.mem_singleton.mp hk
  exact Reads.bind_fails reads_offset (fails_nameInRange hn hname hgt)

/-! ### A number and an uncompressed name -/

/-- `unpackDNAME`: one uncompressed name. -/
def unpackDNAME (rdlen : Nat) : Decoder Name := do
  let off ← offset
  let end_ := off + rdlen
  uncompressedName ((end_ : Int) - off)

/-- `unpackKX`, `unpackAFSDB`, `unpackRT`, `unpackLP`: a 16-bit number and an uncompressed name. -/
def unpackNumbered (rdlen : Nat) : Decoder (UInt16 × Name) := do
  let off ← offset
  let end_ := off + rdlen
  let number ← uint16
  let off ← offset
  let n ← uncompressedName ((end_ : Int) - off)
  pure (number, n)

/-- The calls of a `Pack` method that writes a number and an uncompressed name. -/
def numberedOps (r : UInt16 × Name) : List PackOp := [.uint16 r.1, .nameUncompressed r.2]

def unpackKX := unpackNumbered
def unpackAFSDB := unpackNumbered
def unpackRT := unpackNumbered
def unpackLP := unpackNumbered

theorem codec_unpackDNAME : Codec (fun n => [.nameUncompressed n]) unpackDNAME (·.isValid) where
  reads hn h _ _ := by
    simp [laid_nameUncompressed hn] at h
    simp [unpackDNAME, h] <;> omega
  normal _ h := by
    simp [unpackDNAME] at h
    exact decodeWireUncompressed_isValid h.1

theorem codec_unpackNumbered : Codec numberedOps unpackNumbered (·.2.isValid) where
  reads hr h _ _ := by
    simp [numberedOps, laid_nameUncompressed hr] at h
    simp [unpackNumbered, Prod.ext_iff, h]
    omega
  normal _ h := by
    simp [unpackNumbered] at h
    grind [decodeWireUncompressed_isValid]

/-! ### Character strings -/

/-- `unpackTXT`, `unpackSPF`, `unpackRESINFO`: character strings up to the end of the window. -/
def unpackStrings (rdlen : Nat) : Decoder (List CharString) := do
  let off ← offset
  let end_ := off + rdlen
  loopUntil end_ (collect (charStringInRange end_)) rdlen []

def unpackTXT := unpackStrings
def unpackSPF := unpackStrings
def unpackRESINFO := unpackStrings

/-- The calls of a `Pack` method that writes one character string after the other. -/
def stringsOps (strs : List CharString) : List PackOp := strs.map fun s => .charString s.val

theorem codec_unpackStrings : Codec stringsOps unpackStrings (· ≠ []) where
  reads {_ _ _ _ _ strs} _ h _ _ := by
    have hbytes : ∀ s : CharString, (PackOp.charString s.val).bytes = UInt8.ofNat s.val.length :: s.val :=
      fun s => if_neg (Nat.not_lt.mpr s.property)
    obtain ⟨-, hat, hlen⟩ := h.plain_inv fun op hop => by
      obtain ⟨s, -, rfl⟩ := List.mem_map.mp hop
      rfl
    rw [stringsOps, List.flatMap_map] at hat hlen
    refine .bind reads_offset (reads_loopUntil_collect _ strs hat hlen (Nat.le_refl _) ?_ ?_)
    · intro s _
      rw [hbytes s]
      exact List.cons_ne_nil _ _
    · intro s _ o hs hle
      rw [hbytes s, List.length_cons, Nat.add_comm s.val.length] at *
      exact reads_charStringInRange_iff.mpr ⟨hs, hle, rfl⟩
  normal hpos h :=
    Ensures.bind (.offset (ensures_loopUntil_collect_ne_nil (by omega) hpos)) _ _ h

def unpackX25 (rdlen : Nat) : Decoder CharString := do
  let off ← offset
  charStringInRange (off + rdlen)

theorem codec_unpackX25 : Codec (fun s => [.charString s.val]) unpackX25 fun _ => True where
  reads _ h _ _ := by
    simp at h
    simp [unpackX25, h]
  normal _ _ := trivial

/-- Host information (RFC 1035). -/
structure HINFO where
  cpu : CharString
  os : CharString
  deriving DecidableEq

def HINFO.ops (r : HINFO) : List PackOp := [.charString r.cpu.val, .charString r.os.val]

def unpackHINFO (rdlen : Nat) : Decoder HINFO := do
  let off ← offset
  let end_ := off + rdlen
  let cpu ← charStringInRange end_
  let os ← charStringInRange end_
  pure ⟨cpu, os⟩

theorem codec_unpackHINFO : Codec HINFO.ops unpackHINFO fun _ => True where
  reads {_ _ _ _ _ r} _ h _ _ := by
    obtain ⟨cpu, os⟩ := r
    simp [HINFO.ops] at h
    simp [unpackHINFO, h, -Subtype.exists]
  normal _ _ := trivial

/-- The subaddress is present on the wire or not; `sub` is what is kept of it. -/
structure ISDN where
  addr : CharString
  sub : CharString
  hasSub : Bool
  deriving DecidableEq

def ISDN.ops (r : ISDN) : List PackOp :=
  .charString r.addr.val :: if r.hasSub then [.charString r.sub.val] else []

def ISDN.Normal (r : ISDN) : Prop := r.hasSub = false → r.sub.val = []

def unpackISDN (rdlen : Nat) : Decoder ISDN := do
  let off ← offset
  let end_ := off + rdlen
  let addr ← charStringInRange end_
  let off ← offset
  if off = end_ then pure ⟨addr, ⟨[], by decide⟩, false⟩
  else do
    let sub ← charStringInRange end_
    pure ⟨addr, sub, true⟩

theorem codec_unpackISDN : Codec ISDN.ops unpackISDN ISDN.Normal where
  reads {_ _ _ _ _ r} hr h _ _ := by
    obtain ⟨addr, sub, hasSub⟩ := r
    cases hasSub with
    | false =>
      obtain rfl : sub = ⟨[], by decide⟩ := Subtype.ext (hr rfl)
      simp [ISDN.ops] at h
      simp [unpackISDN, h, -Subtype.exists]
      exact ⟨addr, by simp [h]⟩
    | true =>
      simp [ISDN.ops] at h
      simp [unpackISDN, -Subtype.exists]
      exact ⟨addr, ⟨h.1, by omega⟩, by omega, fun _ => ⟨⟨h.2.1, by omega⟩, rfl, by omega⟩⟩
  normal _ h := by
    simp [unpackISDN] at h
    grind [ISDN.Normal]

/-! ### Names among other fields -/

/-- A mail exchange (RFC 1035). -/
structure MX where
  pref : UInt16
  exchange : Name
  deriving DecidableEq

def MX.ops (r : MX) : List PackOp := [.uint16 r.pref, .name r.exchange]

def unpackMX (rdlen : Nat) : Decoder MX := do
  failIf (rdlen < 3) (invalidRData s!"MX rdlen={rdlen}, want >=3")
  let off ← offset
  let end_ := off + rdlen
  let pref ← uint16
  let n ← nameInRange end_
  pure ⟨pref, n⟩

theorem codec_unpackMX : Codec MX.ops unpackMX (·.exchange.isValid) where
  reads {_ _ _ _ _ r} hr h hhops _ := by
    obtain ⟨pref, exchange⟩ := r
    obtain ⟨hpref, hrest⟩ := laid_uint16.mp h
    obtain ⟨hop, rest, next, rfl, hname, hnil⟩ := laid_name.mp hrest
    obtain ⟨-, rfl⟩ := laid_nil.mp hnil
    have hlt := hname.lt_next
    simp [unpackMX, hpref, Name.decodeWire_of_spells hr hname (hhops hop (.head _))]
    omega
  normal _ h := by
    simp [unpackMX] at h
    grind [decodeWire_isValid]

theorem fails_unpackMX {r : MX} (hr : r.exchange.isValid) (h : Laid msg off r.ops hops (off + rdlen))
    (hhops : ∃ hop ∈ hops, hop > maxHops) : (unpackMX rdlen).Fails maxHops ⟨msg, off⟩ := by
  obtain ⟨hpref, hrest⟩ := laid_uint16.mp h
  obtain ⟨hop, rest, next, rfl, hname, hnil⟩ := laid_name.mp hrest
  obtain ⟨rfl, rfl⟩ := laid_nil.mp hnil
  obtain ⟨k, hk, hgt⟩ := hhops
  obtain rfl := List.mem_singleton.mp hk
  have hlt := hname.lt_next
  exact Reads.bind_fails (reads_failIf (by omega)) (Reads.bind_fails reads_offset
    (Reads.bind_fails (reads_uint16 hpref) (Fails.bind (fails_nameInRange hr hname hgt))))

/-- A responsible person. -/
structure RP where
  mbox : Name
  txt : Name
  deriving DecidableEq

def RP.ops (r : RP) : List PackOp := [.name r.mbox, .name r.txt]

def RP.Normal (r : RP) : Prop := r.mbox.isValid ∧ r.txt.isValid

def unpackRP (rdlen : Nat) : Decoder RP := do
  let off ← offset
  let end_ := off + rdlen
  let mbox ← nameInRange end_
  let txt ← nameInRange end_
  pure ⟨mbox, txt⟩

theorem fails_twoNames {n n' : Name} {hop hop' mid next end_ : Nat} {α : Type}
    {f : Name → Name → Decoder α} (hn : n.isValid) (hn' : n'.isValid)
    (hname : Labels.Spells msg off n.labels hop mid) (hname' : Labels.Spells msg mid n'.labels hop' next)
    (hend : next ≤ end_) (hhops : ∃ k ∈ [hop, hop'], k > maxHops) :
    (nameInRange end_ >>= fun n => nameInRange end_ >>= f n).Fails maxHops ⟨msg, off⟩ := by
  have hlt := hname'.lt_next
  by_cases hfirst : hop ≤ maxHops
  · obtain ⟨k, hk, hgt⟩ := hhops
    obtain rfl | rfl : k = hop ∨ k = hop' := by simpa using hk
    · omega
    · exact Reads.bind_fails (reads_nameInRange hn hname hfirst (by omega))
        (Fails.bind (fails_nameInRange hn' hname' hgt))
  · exact Fails.bind (fails_nameInRange hn hname (by omega))

theorem codec_unpackRP : Codec RP.ops unpackRP RP.Normal where
  reads {_ _ _ _ _ r} hr h hhops _ := by
    obtain ⟨mbox, txt⟩ := r
    obtain ⟨hop, _, mid, rfl, hmbox, hrest⟩ := laid_name.mp h
    obtain ⟨hop', _, next, rfl, htxt, hnil⟩ := laid_name.mp hrest
    obtain ⟨-, rfl⟩ := laid_nil.mp hnil
    have hlt := htxt.lt_next
    simp [unpackRP, Name.decodeWire_of_spells hr.1 hmbox (hhops hop (by simp)),
      Name.decodeWire_of_spells hr.2 htxt (hhops hop' (by simp))]
    omega
  normal _ h := by
    simp [unpackRP] at h
    grind [decodeWire_isValid, RP.Normal]

theorem fails_unpackRP {r : RP} (hr : r.Normal) (h : Laid msg off r.ops hops (off + rdlen))
    (hhops : ∃ hop ∈ hops, hop > maxHops) : (unpackRP rdlen).Fails maxHops ⟨msg, off⟩ := by
  obtain ⟨hop, _, mid, rfl, hmbox, hrest⟩ := laid_name.mp h
  obtain ⟨hop', _, next, rfl, htxt, hnil⟩ := laid_name.mp hrest
  obtain ⟨rfl, rfl⟩ := laid_nil.mp hnil
  exact Reads.bind_fails reads_offset (fails_twoNames hr.1 hr.2 hmbox htxt (Nat.le_refl _) hhops)

/-- The start of a zone of authority (RFC 1035). -/
structure SOA where
  mname : Name
  rname : Name
  serial : UInt32
  refresh : Duration
  retry : Duration
  expire : Duration
  minimum : Duration
  deriving DecidableEq

def SOA.ops (r : SOA) : List PackOp :=
  [.name r.mname, .name r.rname, .uint32 r.serial, .uint32 r.refresh.seconds32,
    .uint32 r.retry.seconds32, .uint32 r.expire.seconds32, .uint32 r.minimum.seconds32]

/-- Whole seconds within 32 bits. -/
def Duration.IsSeconds32 (d : Duration) : Prop := ofSeconds32 (seconds32 d) = d

/-- What the decoder returns: valid names, intervals in whole seconds. -/
def SOA.Normal (r : SOA) : Prop :=
  (r.mname.isValid ∧ r.rname.isValid) ∧ r.refresh.IsSeconds32 ∧ r.retry.IsSeconds32 ∧
    r.expire.IsSeconds32 ∧ r.minimum.IsSeconds32

def unpackSOA (rdlen : Nat) : Decoder SOA := do
  let off ← offset
  let end_ := off + rdlen
  let mname ← nameInRange end_
  let rname ← nameInRange end_
  let serial ← uint32
  let refresh ← uint32
  let retry ← uint32
  let expire ← uint32
  let minimum ← uint32
  pure ⟨mname, rname, serial, .ofSeconds32 refresh, .ofSeconds32 retry, .ofSeconds32 expire,
    .ofSeconds32 minimum⟩

theorem codec_unpackSOA : Codec SOA.ops unpackSOA SOA.Normal where
  reads {_ _ _ _ _ r} hr h hhops _ := by
    obtain ⟨hop, _, mid, rfl, hmname, hrest⟩ := laid_name.mp h
    obtain ⟨hop', _, next, rfl, hrname, hrest⟩ := laid_name.mp hrest
    simp only [laid_uint32, laid_nil] at hrest
    obtain ⟨hserial, hrefresh, hretry, hexpire, hminimum, -, hlen⟩ := hrest
    obtain ⟨⟨hvalid, hvalid'⟩, hrefreshEq, hretryEq, hexpireEq, hminimumEq⟩ := hr
    have hlt := hrname.lt_next
    rw [hlen]
    refine .bind reads_offset (.bind (reads_nameInRange hvalid hmname (hhops hop (by simp)) (by omega))
      (.bind (reads_nameInRange hvalid' hrname (hhops hop' (by simp)) (by omega))
        (.bind (reads_uint32 hserial) (.bind (reads_uint32 hrefresh)
          (.bind (reads_uint32 hretry) (.bind (reads_uint32 hexpire)
            (.bind (reads_uint32 hminimum) ?_)))))))
    rw [hrefreshEq, hretryEq, hexpireEq, hminimumEq]
    exact reads_pure r
  normal _ h := by
    simp [unpackSOA] at h
    grind [decodeWire_isValid, SOA.Normal, Duration.IsSeconds32, Duration.seconds32_ofSeconds32]

theorem fails_unpackSOA {r : SOA} (hr : r.Normal) (h : Laid msg off r.ops hops (off + rdlen))
    (hhops : ∃ hop ∈ hops, hop > maxHops) : (unpackSOA rdlen).Fails maxHops ⟨msg, off⟩ := by
  obtain ⟨hop, _, mid, rfl, hmname, hrest⟩ := laid_name.mp h
  obtain ⟨hop', _, next, rfl, hrname, hrest⟩ := laid_name.mp hrest
  have hend := hrest.le
  obtain ⟨rfl, -, -⟩ := hrest.plain_inv (by simp [PackOp.compressed])
  exact Reads.bind_fails reads_offset (fails_twoNames hr.1.1 hr.1.2 hmname hrname hend hhops)

/-- The place of a service (RFC 2782). -/
structure SRV where
  priority : UInt16
  weight : UInt16
  port : UInt16
  target : Name
  deriving DecidableEq

def SRV.ops (r : SRV) : List PackOp :=
  [.uint16 r.priority, .uint16 r.weight, .uint16 r.port, .nameUncompressed r.target]

def unpackSRV (rdlen : Nat) : Decoder SRV := do
  let off ← offset
  let end_ := off + rdlen
  let priority ← uint16
  let weight ← uint16
  let port ← uint16
  let off ← offset
  let target ← uncompressedName ((end_ : Int) - off)
  pure ⟨priority, weight, port, target⟩

theorem codec_unpackSRV : Codec SRV.ops unpackSRV (·.target.isValid) where
  reads {_ _ _ _ _ r} hr h _ _ := by
    obtain ⟨priority, weight, port, target⟩ := r
    simp [SRV.ops, laid_nameUncompressed hr] at h
    simp [unpackSRV, h]
    omega
  normal _ h := by
    simp [unpackSRV] at h
    grind [decodeWireUncompressed_isValid]

/-- A rewrite rule (RFC 3403). -/
structure NAPTR where
  order : UInt16
  pref : UInt16
  flags : CharString
  services : CharString
  regexp : CharString
  replacement : Name
  deriving DecidableEq

def NAPTR.ops (r : NAPTR) : List PackOp :=
  [.uint16 r.order, .uint16 r.pref, .charString r.flags.val, .charString r.services.val,
    .charString r.regexp.val, .nameUncompressed r.replacement]

def unpackNAPTR (rdlen : Nat) : Decoder NAPTR := do
  let off ← offset
  let end_ := off + rdlen
  let order ← uint16
  let pref ← uint16
  let flags ← charStringInRange end_
  let services ← charStringInRange end_
  let regexp ← charStringInRange end_
  let off ← offset
  let replacement ← uncompressedName ((end_ : Int) - off)
  pure ⟨order, pref, flags, services, regexp, replacement⟩

theorem codec_unpackNAPTR : Codec NAPTR.ops unpackNAPTR (·.replacement.isValid) where
  reads {_ _ _ _ _ r} hr h _ _ := by
    obtain ⟨order, pref, flags, services, regexp, replacement⟩ := r
    simp [NAPTR.ops, laid_nameUncompressed hr] at h
    simp [unpackNAPTR, h, -Subtype.exists]
    omega
  normal _ h := by
    simp [unpackNAPTR] at h
    grind [decodeWireUncompressed_isValid]

end Families

end Acidns
