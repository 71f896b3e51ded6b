import Acidns.Wire.RData.Fields
import Acidns.Wire.RData.ParamList
import Acidns.Wire.RData.TypeBitmap

/-!
# Typed rdata

`rdata/rdata.go`: the union of all payloads, the `Pack` method of each as a list of packer calls, and the dispatch of `Unpack` on the record type. The dispatch is a table from types to decoders, so that what holds of every decoder is stated once over its entries.

`RData.Normal` holds of what `Unpack` returns, and on such payloads `Unpack` inverts `Pack` as long as the names in it stay within the bound on pointer hops.
-/

namespace Acidns

open Parser Decoder List

variable {r : RData} {α : Type}

/-- The payload of a record, by type; `unknown` keeps the bytes of any other. -/
inductive RData where
  | a (r : FixedBytes 4)
  | aaaa (r : FixedBytes 16)
  | cname (r : Name)
  | ns (r : Name)
  | ptr (r : Name)
  | mx (r : MX)
  | txt (r : List CharString)
  | soa (r : SOA)
  | svcb (r : SvcbBody)
  | https (r : SvcbBody)
  | caa (r : CAA)
  | dnskey (r : DNSKEY)
  | ds (r : DS)
  | rrsig (r : RRSIG)
  | nsec (r : NSEC)
  | nsec3 (r : NSEC3)
  | nsec3param (r : NSEC3PARAM)
  | srv (r : SRV)
  | naptr (r : NAPTR)
  | rp (r : RP)
  | afsdb (r : UInt16 × Name)
  | x25 (r : CharString)
  | isdn (r : ISDN)
  | rt (r : UInt16 × Name)
  | nsap (r : Bytes)
  | nsapptr (r : Name)
  | loc (r : LOC)
  | apl (r : List APLItem)
  | ipseckey (r : IPSECKEY)
  | dhcid (r : Bytes)
  | hip (r : HIP)
  | nid (r : Locator64)
  | l32 (r : L32)
  | l64 (r : Locator64)
  | lp (r : UInt16 × Name)
  | eui48 (r : FixedBytes 6)
  | eui64 (r : FixedBytes 8)
  | uri (r : URI)
  | zonemd (r : ZONEMD)
  | resinfo (r : List CharString)
  | spf (r : List CharString)
  | sshfp (r : SSHFP)
  | tlsa (r : TLSA)
  | smimea (r : TLSA)
  | csync (r : CSYNC)
  | dname (r : Name)
  | hinfo (r : HINFO)
  | kx (r : UInt16 × Name)
  | cds (r : DS)
  | cdnskey (r : DNSKEY)
  | openpgpkey (r : Bytes)
  | cert (r : CERT)
  | amtrelay (r : AMTRELAY)
  | tkey (r : TKEY)
  | unknown (t : RRType) (data : Bytes)
  deriving DecidableEq

namespace RData

def type : RData → RRType
  | a _ => .a
  | aaaa _ => .aaaa
  | cname _ => .cname
  | ns _ => .ns
  | ptr _ => .ptr
  | mx _ => .mx
  | txt _ => .txt
  | soa _ => .soa
  | svcb _ => .svcb
  | https _ => .https
  | caa _ => .caa
  | dnskey _ => .dnskey
  | ds _ => .ds
  | rrsig _ => .rrsig
  | nsec _ => .nsec
  | nsec3 _ => .nsec3
  | nsec3param _ => .nsec3param
  | srv _ => .srv
  | naptr _ => .naptr
  | rp _ => .rp
  | afsdb _ => .afsdb
  | x25 _ => .x25
  | isdn _ => .isdn
  | rt _ => .rt
  | nsap _ => .nsap
  | nsapptr _ => .nsapptr
  | loc _ => .loc
  | apl _ => .apl
  | ipseckey _ => .ipseckey
  | dhcid _ => .dhcid
  | hip _ => .hip
  | nid _ => .nid
  | l32 _ => .l32
  | l64 _ => .l64
  | lp _ => .lp
  | eui48 _ => .eui48
  | eui64 _ => .eui64
  | uri _ => .uri
  | zonemd _ => .zonemd
  | resinfo _ => .resinfo
  | spf _ => .spf
  | sshfp _ => .sshfp
  | tlsa _ => .tlsa
  | smimea _ => .smimea
  | csync _ => .csync
  | dname _ => .dname
  | hinfo _ => .hinfo
  | kx _ => .kx
  | cds _ => .cds
  | cdnskey _ => .cdnskey
  | openpgpkey _ => .openpgpkey
  | cert _ => .cert
  | amtrelay _ => .amtrelay
  | tkey _ => .tkey
  | unknown t _ => t

/-- The fields of the payload in their order. -/
def ops : RData → List PackOp
  | a r => [.raw r.val]
  | aaaa r => [.raw r.val]
  | cname r => [.name r]
  | ns r => [.name r]
  | ptr r => [.name r]
  | mx r => r.ops
  | txt r => stringsOps r
  | soa r => r.ops
  | svcb r => r.ops
  | https r => r.ops
  | caa r => r.ops
  | dnskey r => r.ops
  | ds r => r.ops
  | rrsig r => r.ops
  | nsec r => r.ops
  | nsec3 r => r.ops
  | nsec3param r => r.ops
  | srv r => r.ops
  | naptr r => r.ops
  | rp r => r.ops
  | afsdb r => numberedOps r
  | x25 r => [.charString r.val]
  | isdn r => r.ops
  | rt r => numberedOps r
  | nsap r => [.raw r]
  | nsapptr r => [.name r]
  | loc r => r.ops
  | apl r => aplOps r
  | ipseckey r => r.ops
  | dhcid r => [.raw r]
  | hip r => r.ops
  | nid r => r.ops
  | l32 r => r.ops
  | l64 r => r.ops
  | lp r => numberedOps r
  | eui48 r => [.raw r.val]
  | eui64 r => [.raw r.val]
  | uri r => r.ops
  | zonemd r => r.ops
  | resinfo r => stringsOps r
  | spf r => stringsOps r
  | sshfp r => r.ops
  | tlsa r => r.ops
  | smimea r => r.ops
  | csync r => r.ops
  | dname r => [.nameUncompressed r]
  | hinfo r => r.ops
  | kx r => numberedOps r
  | cds r => r.ops
  | cdnskey r => r.ops
  | openpgpkey r => [.raw r]
  | cert r => r.ops
  | amtrelay r => r.ops
  | tkey r => r.ops
  | unknown _ data => [.raw data]

end RData

/-! ### Dispatch -/

def decodeAs {α : Type} (mk : α → RData) (p : Nat → Decoder α) (rdlen : Nat) : Decoder RData := do
  let r ← p rdlen
  pure (mk r)

/-- The table of the source's switch over types. -/
def unpackers : List (RRType × (Nat → Decoder RData)) := [
  (.a, decodeAs .a unpackA),
  (.aaaa, decodeAs .aaaa unpackAAAA),
  (.cname, decodeAs .cname unpackCNAME),
  (.ns, decodeAs .ns unpackNS),
  (.ptr, decodeAs .ptr unpackPTR),
  (.mx, decodeAs .mx unpackMX),
  (.txt, decodeAs .txt unpackTXT),
  (.soa, decodeAs .soa unpackSOA),
  (.svcb, decodeAs .svcb unpackSVCB),
  (.https, decodeAs .https unpackHTTPS),
  (.caa, decodeAs .caa unpackCAA),
  (.dnskey, decodeAs .dnskey unpackDNSKEY),
  (.ds, decodeAs .ds unpackDS),
  (.rrsig, decodeAs .rrsig unpackRRSIG),
  (.nsec, decodeAs .nsec unpackNSEC),
  (.nsec3, decodeAs .nsec3 unpackNSEC3),
  (.nsec3param, decodeAs .nsec3param unpackNSEC3PARAM),
  (.srv, decodeAs .srv unpackSRV),
  (.naptr, decodeAs .naptr unpackNAPTR),
  (.rp, decodeAs .rp unpackRP),
  (.afsdb, decodeAs .afsdb unpackAFSDB),
  (.x25, decodeAs .x25 unpackX25),
  (.isdn, decodeAs .isdn unpackISDN),
  (.rt, decodeAs .rt unpackRT),
  (.nsap, decodeAs .nsap unpackNSAP),
  (.nsapptr, decodeAs .nsapptr unpackNSAPPTR),
  (.loc, decodeAs .loc unpackLOC),
  (.apl, decodeAs .apl unpackAPL),
  (.ipseckey, decodeAs .ipseckey unpackIPSECKEY),
  (.dhcid, decodeAs .dhcid unpackDHCID),
  (.hip, decodeAs .hip unpackHIP),
  (.nid, decodeAs .nid unpackNID),
  (.l32, decodeAs .l32 unpackL32),
  (.l64, decodeAs .l64 unpackL64),
  (.lp, decodeAs .lp unpackLP),
  (.eui48, decodeAs .eui48 unpackEUI48),
  (.eui64, decodeAs .eui64 unpackEUI64),
  (.uri, decodeAs .uri unpackURI),
  (.zonemd, decodeAs .zonemd unpackZONEMD),
  (.resinfo, decodeAs .resinfo unpackRESINFO),
  (.spf, decodeAs .spf unpackSPF),
  (.sshfp, decodeAs .sshfp unpackSSHFP),
  (.tlsa, decodeAs .tlsa unpackTLSA),
  (.smimea, decodeAs .smimea unpackSMIMEA),
  (.csync, decodeAs .csync unpackCSYNC),
  (.dname, decodeAs .dname unpackDNAME),
  (.hinfo, decodeAs .hinfo unpackHINFO),
  (.kx, decodeAs .kx unpackKX),
  (.cds, decodeAs .cds unpackCDS),
  (.cdnskey, decodeAs .cdnskey unpackCDNSKEY),
  (.openpgpkey, decodeAs .openpgpkey unpackOPENPGPKEY),
  (.cert, decodeAs .cert unpackCERT),
  (.amtrelay, decodeAs .amtrelay unpackAMTRELAY),
  (.tkey, decodeAs .tkey unpackTKEY)]

/-- A type without a decoder of its own is kept as bytes. -/
def unpackTyped (t : RRType) (rdlen : Nat) : Decoder RData :=
  match unpackers.lookup t with
  | some unpack => unpack rdlen
  | none => decodeAs (.unknown t) unpackOpaque rdlen

namespace RData

/-- The payload packed alone, so with no pointer to earlier names. -/
def packed (rd : RData) : Bytes := (Packer.new.run rd.ops).buf

/-- `Unpack`: `rdlen` bytes of rdata of type `t`. An empty window is an unknown payload of any type. -/
def unpack (t : RRType) (rdlen : Nat) : Decoder RData := do
  let left ← remaining
  failIf (left < rdlen) (invalidRData s!"rdlen {rdlen} exceeds remaining {left}")
  if rdlen = 0 then pure (.unknown t [])
  else do
    let start ← offset
    let r ← unpackTyped t rdlen
    let off ← offset
    failIf (off ≠ start + rdlen)
      (invalidRData s!"{t.string} consumed {(off : Int) - start} of {rdlen} bytes")
    pure r

/-- The payload is as its decoder produces it; one kept as unknown bytes has a type without a decoder or is empty. -/
def Normal : RData → Prop
  | cname r => r.isValid
  | ns r => r.isValid
  | ptr r => r.isValid
  | mx r => r.exchange.isValid
  | txt r => r ≠ []
  | soa r => r.Normal
  | svcb r => r.Normal
  | https r => r.Normal
  | caa r => r.Normal
  | dnskey r => r.protocol = 3
  | rrsig r => r.signerName.isValid
  | nsec r => r.Normal
  | nsec3 r => r.Normal
  | srv r => r.target.isValid
  | naptr r => r.replacement.isValid
  | rp r => r.Normal
  | afsdb r => r.2.isValid
  | isdn r => r.Normal
  | rt r => r.2.isValid
  | nsap r => r ≠ []
  | nsapptr r => r.isValid
  | loc r => r.Normal
  | apl r => (∀ it ∈ r, it.Normal) ∧ r ≠ []
  | ipseckey r => r.gateway.Normal
  | dhcid r => r ≠ []
  | hip r => r.Normal
  | lp r => r.2.isValid
  | uri r => r.target ≠ []
  | zonemd r => r.Normal
  | resinfo r => r ≠ []
  | spf r => r ≠ []
  | csync r => r.types.Pairwise (· < ·)
  | dname r => r.isValid
  | kx r => r.2.isValid
  | openpgpkey r => r ≠ []
  | amtrelay r => r.relay.Normal
  | tkey r => r.Normal
  | unknown t data => data = [] ∨ unpackers.lookup t = none
  | _ => True

end RData

/-! ### What the decoders look at -/

/-- The types with compressed names in their data. -/
def compressing : List RRType := [.cname, .ns, .ptr, .nsapptr, .mx, .soa, .rp]

-- the decoders are unfolded to their reads, of which some make a long sequence
set_option synthInstance.maxSize 600 in
theorem local_unpackers : ∀ e ∈ unpackers, (e.1 ∈ compressing ∧ ∀ rdlen, KeepsMessage (e.2 rdlen)) ∨
    ∀ rdlen, Local (e.2 rdlen) := by
  simp only [unpackers, forall_mem_cons, not_mem_nil, false_implies, implies_true, and_true, decodeAs]
  repeat' apply And.intro
  all_goals first
    | refine .inl ⟨by decide, fun rdlen => ?_⟩
    | refine .inr fun rdlen => ?_
  all_goals dsimp only [unpackA, unpackAAAA, unpackCNAME, unpackNS, unpackPTR, unpackMX, unpackTXT, unpackSOA,
    unpackSVCB, unpackHTTPS, unpackCAA, unpackDNSKEY, unpackDS, unpackRRSIG, unpackNSEC, unpackNSEC3,
    unpackNSEC3PARAM, unpackSRV, unpackNAPTR, unpackRP, unpackAFSDB, unpackX25, unpackISDN, unpackRT, unpackNSAP,
    unpackNSAPPTR, unpackLOC, unpackAPL, unpackIPSECKEY, unpackDHCID, unpackHIP, unpackNID, unpackL32, unpackL64,
    unpackLP, unpackEUI48, unpackEUI64, unpackURI, unpackZONEMD, unpackRESINFO, unpackSPF, unpackSSHFP, unpackTLSA,
    unpackSMIMEA, unpackCSYNC, unpackDNAME, unpackHINFO, unpackKX, unpackCDS, unpackCDNSKEY, unpackOPENPGPKEY,
    unpackCERT, unpackAMTRELAY, unpackTKEY, unpackFixed, unpackOpaque, unpackTarget, unpackNumbered, unpackStrings,
    unpackDelegation, unpackAssociation, unpackLocator64, unpackSvcbBody]
  all_goals infer_instance

theorem local_unpackTyped (t : RRType) (rdlen : Nat) :
    (t ∈ compressing ∧ KeepsMessage (unpackTyped t rdlen)) ∨ Local (unpackTyped t rdlen) := by
  rw [unpackTyped]
  split
  · rename_i unpack hlookup
    obtain ⟨before, after, hsplit, -⟩ := lookup_eq_some_iff.mp hlookup
    rcases local_unpackers (t, unpack) (by rw [hsplit]; simp) with ⟨ht, hkeeps⟩ | hlocal
    · exact .inl ⟨ht, hkeeps rdlen⟩
    · exact .inr (hlocal rdlen)
  · dsimp only [decodeAs, unpackOpaque]
    exact .inr inferInstance

instance (t : RRType) (rdlen : Nat) : KeepsMessage (unpackTyped t rdlen) :=
  (local_unpackTyped t rdlen).elim And.right fun _ => inferInstance

/-! ### Round trip -/

theorem reads_decodeAs_iff {α : Type} {mk : α → RData} {p : Nat → Decoder α} {maxHops off off' rdlen : Nat}
    {msg : Bytes} {r : RData} : (decodeAs mk p rdlen).Reads maxHops msg off r off' ↔
      ∃ a, (p rdlen).Reads maxHops msg off a off' ∧ mk a = r := by
  simp only [decodeAs, Reads, bind_eq_ok]
  constructor
  · rintro ⟨a, c', hp, ⟨⟩⟩
    exact ⟨a, hp, rfl⟩
  · rintro ⟨a, hp, rfl⟩
    exact ⟨a, _, hp, rfl⟩

/-- The payload has a decoder that reads back what is packed. -/
inductive RData.Coded : RData → Prop
  | mk {α : Type} {mk : α → RData} {p : Nat → Decoder α} (a : α)
      (hcodec : Codec (fun a => (mk a).ops) p fun a => (mk a).Normal)
      (hlookup : unpackers.lookup (mk a).type = some (decodeAs mk p)) : Coded (mk a)

/-- Every payload but an unknown one has a codec. -/
theorem RData.coded (r : RData) : r.Coded ∨ ∃ t data, r = .unknown t data := by
  cases r with
  | unknown t data => exact .inr ⟨t, data, rfl⟩
  | a r | aaaa r | eui48 r | eui64 r => exact .inl (.mk r codec_unpackFixed rfl)
  | cname r | ns r | ptr r | nsapptr r => exact .inl (.mk r codec_unpackTarget rfl)
  | nsap r | dhcid r | openpgpkey r => exact .inl (.mk r codec_unpackOpaque rfl)
  | txt r | resinfo r | spf r => exact .inl (.mk r codec_unpackStrings rfl)
  | afsdb r | rt r | lp r | kx r => exact .inl (.mk r codec_unpackNumbered rfl)
  | svcb r | https r => exact .inl (.mk r codec_unpackSvcbBody rfl)
  | ds r | cds r => exact .inl (.mk r codec_unpackDelegation rfl)
  | tlsa r | smimea r => exact .inl (.mk r codec_unpackAssociation rfl)
  | nid r | l64 r => exact .inl (.mk r codec_unpackLocator64 rfl)
  | mx r => exact .inl (.mk r codec_unpackMX rfl)
  | soa r => exact .inl (.mk r codec_unpackSOA rfl)
  | rp r => exact .inl (.mk r codec_unpackRP rfl)
  | caa r => exact .inl (.mk r codec_unpackCAA rfl)
  | dnskey r => exact .inl (.mk r codec_unpackDNSKEY rfl)
  | cdnskey r => exact .inl (.mk r codec_unpackCDNSKEY rfl)
  | rrsig r => exact .inl (.mk r codec_unpackRRSIG rfl)
  | nsec r => exact .inl (.mk r codec_unpackNSEC rfl)
  | nsec3 r => exact .inl (.mk r codec_unpackNSEC3 rfl)
  | nsec3param r => exact .inl (.mk r codec_unpackNSEC3PARAM rfl)
  | srv r => exact .inl (.mk r codec_unpackSRV rfl)
  | naptr r => exact .inl (.mk r codec_unpackNAPTR rfl)
  | x25 r => exact .inl (.mk r codec_unpackX25 rfl)
  | isdn r => exact .inl (.mk r codec_unpackISDN rfl)
  | hinfo r => exact .inl (.mk r codec_unpackHINFO rfl)
  | loc r => exact .inl (.mk r codec_unpackLOC rfl)
  | apl r => exact .inl (.mk r codec_unpackAPL rfl)
  | ipseckey r => exact .inl (.mk r codec_unpackIPSECKEY rfl)
  | amtrelay r => exact .inl (.mk r codec_unpackAMTRELAY rfl)
  | hip r => exact .inl (.mk r codec_unpackHIP rfl)
  | l32 r => exact .inl (.mk r codec_unpackL32 rfl)
  | uri r => exact .inl (.mk r codec_unpackURI rfl)
  | zonemd r => exact .inl (.mk r codec_unpackZONEMD rfl)
  | sshfp r => exact .inl (.mk r codec_unpackSSHFP rfl)
  | csync r => exact .inl (.mk r codec_unpackCSYNC rfl)
  | dname r => exact .inl (.mk r codec_unpackDNAME rfl)
  | cert r => exact .inl (.mk r codec_unpackCERT rfl)
  | tkey r => exact .inl (.mk r codec_unpackTKEY rfl)

theorem type_of_unpackers : ∀ e ∈ unpackers, ∃ (α : Type) (mk : α → RData) (p : Nat → Decoder α),
    e.2 = decodeAs mk p ∧ ∀ a, (mk a).type = e.1 ∧ ∀ t data, mk a ≠ .unknown t data := by
  simp only [unpackers, forall_mem_cons]
  repeat refine ⟨⟨_, _, _, rfl, fun _ => ⟨rfl, fun _ _ => RData.noConfusion⟩⟩, ?_⟩
  exact forall_mem_nil _

section Unpack

variable {maxHops off rdlen : Nat} {msg : Bytes} {hops : List Nat} {c : Unpacker} {t : RRType}

theorem fails_unpackTyped_of {mk : α → RData} {p : Nat → Decoder α}
    (hlookup : unpackers.lookup t = some (decodeAs mk p)) (hp : (p rdlen).Fails maxHops ⟨msg, off⟩) :
    (unpackTyped t rdlen).Fails maxHops ⟨msg, off⟩ := by
  rw [unpackTyped, hlookup]
  exact Fails.bind hp

theorem reads_unpackTyped (hr : r.Normal) (hpos : 0 < rdlen)
    (h : Laid msg off r.ops hops (off + rdlen)) (hhops : ∀ hop ∈ hops, hop ≤ maxHops)
    (hend : off + rdlen ≤ msg.length) :
    (unpackTyped r.type rdlen).Reads maxHops msg off r (off + rdlen) := by
  rcases r.coded with ⟨a, hcodec, hlookup⟩ | ⟨t, data, rfl⟩
  · rw [unpackTyped, hlookup]
    exact reads_decodeAs_iff.mpr ⟨a, hcodec.reads hr h hhops hend, rfl⟩
  · have hdata : data ≠ [] := by
      rintro rfl
      have hlen := (laid_nil.mp (laid_raw.mp h).2).2
      simp only [length_nil] at hlen
      omega
    change (unpackTyped t rdlen).Reads maxHops msg off (.unknown t data) (off + rdlen)
    rw [unpackTyped, hr.resolve_left hdata]
    exact reads_decodeAs_iff.mpr ⟨data, codec_unpackOpaque.reads hdata h hhops hend, rfl⟩

theorem normal_of_unpackTyped {off' : Nat} (hpos : 0 < rdlen)
    (h : (unpackTyped t rdlen).Reads maxHops msg off r off') : r.type = t ∧ r.Normal := by
  rw [unpackTyped] at h
  split at h
  · rename_i unpack hlookup
    obtain ⟨before, after, hsplit, -⟩ := lookup_eq_some_iff.mp hlookup
    obtain ⟨α, mk, p, rfl, hmk⟩ := type_of_unpackers (t, unpack) (by rw [hsplit]; simp)
    have hread := h
    obtain ⟨a, -, rfl⟩ := reads_decodeAs_iff.mp h
    obtain ⟨htype, hknown⟩ := hmk a
    refine ⟨htype, ?_⟩
    rcases (mk a).coded with hcoded | ⟨t, data, heq⟩
    · generalize mk a = r at *
      obtain ⟨a, hcodec, hlookup'⟩ := hcoded
      rw [htype, hlookup] at hlookup'
      rw [Option.some.inj hlookup'] at hread
      obtain ⟨a', hp, heq⟩ := reads_decodeAs_iff.mp hread
      rw [← heq]
      exact hcodec.normal hpos hp
    · exact absurd heq (hknown t data)
  · rename_i hlookup
    obtain ⟨data, -, rfl⟩ := reads_decodeAs_iff.mp h
    exact ⟨rfl, .inr hlookup⟩

/-- The types whose names may be compressed. -/
def RData.Compresses : RData → Prop
  | .cname _ | .ns _ | .ptr _ | .nsapptr _ | .mx _ | .soa _ | .rp _ => True
  | _ => False

theorem plain_gatewayOps (g : Gateway) : ∀ op ∈ g.ops, op.compressed = none := by
  cases g <;> simp [Gateway.ops, PackOp.compressed]

/-- The other types never write a compressed name. -/
theorem RData.plain_ops (hr : ¬r.Compresses) : ∀ op ∈ r.ops, op.compressed = none := by
  have hstrings : ∀ strs, ∀ op ∈ stringsOps strs, op.compressed = none := fun strs op hop => by
    obtain ⟨s, -, rfl⟩ := mem_map.mp hop
    rfl
  have hnames : ∀ rvs : List Name, ∀ op ∈ rvs.map PackOp.nameUncompressed, op.compressed = none :=
    fun rvs op hop => by
      obtain ⟨n, -, rfl⟩ := mem_map.mp hop
      rfl
  cases r with
  | cname _ | ns _ | ptr _ | nsapptr _ | mx _ | soa _ | rp _ => exact absurd trivial hr
  | txt r | resinfo r | spf r => exact hstrings r
  | svcb r | https r =>
    simp only [RData.ops, SvcbBody.ops, forall_mem_cons]
    exact ⟨rfl, rfl, plain_params r.params⟩
  | apl r => exact plain_aplOps r
  | nsec r =>
    simp only [RData.ops, NSEC.ops, forall_mem_cons]
    exact ⟨rfl, plain_typeBitmapOps r.types⟩
  | nsec3 r =>
    simp only [RData.ops, NSEC3.ops, forall_mem_cons]
    exact ⟨rfl, rfl, rfl, rfl, rfl, rfl, rfl, plain_typeBitmapOps r.types⟩
  | csync r =>
    simp only [RData.ops, CSYNC.ops, forall_mem_cons]
    exact ⟨rfl, rfl, plain_typeBitmapOps r.types⟩
  | hip r =>
    simp only [RData.ops, HIP.ops, forall_mem_cons]
    exact ⟨rfl, rfl, rfl, rfl, rfl, hnames r.rvs⟩
  | isdn r =>
    cases hsub : r.hasSub <;> simp [RData.ops, ISDN.ops, hsub, PackOp.compressed]
  | ipseckey r =>
    simp only [RData.ops, IPSECKEY.ops, forall_mem_cons, forall_mem_append]
    exact ⟨rfl, rfl, rfl, plain_gatewayOps r.gateway, rfl, forall_mem_nil _⟩
  | amtrelay r =>
    simp only [RData.ops, AMTRELAY.ops, forall_mem_cons]
    exact ⟨rfl, rfl, plain_gatewayOps r.relay⟩
  | _ =>
    simp [RData.ops, numberedOps, CAA.ops, DNSKEY.ops, DS.ops, RRSIG.ops, NSEC3PARAM.ops, SRV.ops, NAPTR.ops,
      LOC.ops, Locator64.ops, L32.ops, URI.ops, ZONEMD.ops, SSHFP.ops, TLSA.ops, HINFO.ops, CERT.ops, TKEY.ops,
      PackOp.compressed]

theorem fails_unpackTyped (hr : r.Normal) (h : Laid msg off r.ops hops (off + rdlen))
    (hhops : ∃ hop ∈ hops, hop > maxHops) : (unpackTyped r.type rdlen).Fails maxHops ⟨msg, off⟩ := by
  by_cases hcomp : r.Compresses
  · cases r with
    | cname r | ns r | ptr r | nsapptr r => exact fails_unpackTyped_of rfl (fails_unpackTarget hr h hhops)
    | mx r => exact fails_unpackTyped_of rfl (fails_unpackMX hr h hhops)
    | soa r => exact fails_unpackTyped_of rfl (fails_unpackSOA hr h hhops)
    | rp r => exact fails_unpackTyped_of rfl (fails_unpackRP hr h hhops)
    | _ => exact hcomp.elim
  · obtain ⟨hnil, -, -⟩ := h.plain_inv (RData.plain_ops hcomp)
    obtain ⟨hop, hmem, -⟩ := hhops
    rw [hnil] at hmem
    exact absurd hmem not_mem_nil

theorem RData.lt_of_laid {off' : Nat} (hr : r.Normal) (hne : ∀ t, r ≠ .unknown t [])
    (h : Laid msg off r.ops hops off') : off < off' := by
  have hfixed : ∀ {n} (b : FixedBytes (n + 1)), b.val ≠ [] := fun b =>
    ne_nil_of_length_pos (by rw [b.property]; omega)
  have hstrings : ∀ {strs : List CharString}, strs ≠ [] → Laid msg off (stringsOps strs) hops off' →
      off < off' := fun {strs} hstrs h => by
    obtain ⟨s, rest, rfl⟩ := exists_cons_of_ne_nil hstrs
    exact h.lt_of_occupies s.property
  cases r with
  | a r | aaaa r | eui48 r | eui64 r => exact h.lt_of_occupies (hfixed r)
  | txt r | resinfo r | spf r => exact hstrings hr h
  | nsap r | dhcid r | openpgpkey r => exact h.lt_of_occupies hr
  | apl r =>
    obtain ⟨it, rest, rfl⟩ := exists_cons_of_ne_nil hr.2
    exact h.lt_of_occupies trivial
  | nsec r => exact h.lt_of_occupies hr.1
  | dname r => exact h.lt_of_occupies hr
  | tkey r => exact h.lt_of_occupies hr.1
  | x25 r => exact h.lt_of_occupies r.property
  | hinfo r => exact h.lt_of_occupies r.cpu.property
  | isdn r => exact h.lt_of_occupies r.addr.property
  | unknown t data =>
    refine h.lt_of_occupies fun hempty => hne t ?_
    rw [hempty]
  | _ => exact h.lt_of_occupies trivial

/-- **Rdata round trip.** Unpacking what `Pack` has written, with the names within the hop bound. -/
theorem RData.reads_unpack (hr : r.Normal) (h : Laid msg off r.ops hops (off + rdlen))
    (hhops : ∀ hop ∈ hops, hop ≤ maxHops) (hend : off + rdlen ≤ msg.length) :
    (unpack r.type rdlen).Reads maxHops msg off r (off + rdlen) := by
  refine .bind (.bind reads_message (.bind reads_offset (reads_pure _)))
    (.bind (reads_failIf (by omega)) ?_)
  by_cases hempty : ∃ t, r = .unknown t []
  · obtain ⟨t, rfl⟩ := hempty
    obtain ⟨-, hnil⟩ := laid_raw.mp h
    have hlen := (laid_nil.mp hnil).2
    simp only [length_nil] at hlen
    rw [if_pos (by omega), hlen]
    exact reads_pure _
  · have hlt := RData.lt_of_laid hr (fun t ht => hempty ⟨t, ht⟩) h
    rw [if_neg (by omega)]
    exact .bind reads_offset <| .bind (reads_unpackTyped hr (by omega) h hhops hend) <|
      .bind reads_offset <| .bind (reads_failIf (by simp)) (reads_pure r)

theorem RData.fails_unpack (hr : r.Normal) (h : Laid msg off r.ops hops (off + rdlen))
    (hhops : ∃ hop ∈ hops, hop > maxHops) (hend : off + rdlen ≤ msg.length) :
    (unpack r.type rdlen).Fails maxHops ⟨msg, off⟩ := by
  refine Reads.bind_fails (.bind reads_message (.bind reads_offset (reads_pure _)))
    (Reads.bind_fails (reads_failIf (by omega)) ?_)
  have hne : ∀ t, r ≠ .unknown t [] := by
    rintro t rfl
    obtain ⟨-, hnil⟩ := laid_raw.mp h
    obtain ⟨hop, hmem, -⟩ := hhops
    rw [(laid_nil.mp hnil).1] at hmem
    exact absurd hmem not_mem_nil
  have hlt := RData.lt_of_laid hr hne h
  rw [if_neg (by omega)]
  exact Reads.bind_fails reads_offset (Fails.bind (fails_unpackTyped hr h hhops))

theorem RData.ensures_unpack : (unpack t rdlen).Ensures maxHops c fun r _ => r.type = t ∧ r.Normal := by
  refine .bind <| .bind <| .message <| .bind <|
    .offset <| .pure <| .bind <| .failIf fun _ => ?_
  split
  · exact .pure ⟨rfl, .inl rfl⟩
  · exact .bind <| .offset <| .bind <|
      (ensures_of_reads fun _ _ => normal_of_unpackTyped (by omega)).mono fun _ _ hr => .bind <| .offset <|
      .bind <| .failIf fun _ => .pure hr

end Unpack

end Acidns
