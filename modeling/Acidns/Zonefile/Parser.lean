import Acidns.Authoritative.Zone
import Acidns.Wire.Presentation
import Acidns.Zonefile.Lexer

/-!
# Parsing a zone

`zonefile/parser.go` and `Parse` of `zonefile/zonefile.go`: the fields of each logical line are taken as a
directive or as a record. The directives `$GENERATE` and `$INCLUDE`, which have files of their own in the
source, are parameters.
-/

namespace Acidns

open Numeral (isDigit readDecimal hexDecode)

/-- The text forms that the standard library reads: the addresses of `net/netip` and base64. -/
structure Texts where
  parseAddr : Bytes → Option Bytes
  parseBase64 : Bytes → Option Bytes

def upperByte (c : UInt8) : UInt8 := if 0x61 ≤ c ∧ c ≤ 0x7a then c - 0x20 else c

def RRType.text (t : RRType) : Bytes := ascii t.string

def RRType.parse (s : Bytes) : Option RRType :=
  match RRType.typeNames.find? fun e => ascii e.2 = s.map upperByte with
  | some e => some e.1
  | none =>
    if s.length > 4 ∧ (s.take 4).map upperByte = ascii "TYPE" then
      match readDecimal (s.drop 4) with
      | some v => if v < 2 ^ 16 then some (UInt16.ofNat v) else none
      | none => none
    else none

/-! ### Constructors of rdata -/

def checkName (n : Name) (text : String) : Except WireError Unit :=
  if !n.isValid then .error ⟨.invalidRData, text⟩ else .ok ()

def newNS (n : Name) : Except WireError RData := do
  checkName n "NS name is invalid"
  return .ns n

def newCNAME (n : Name) : Except WireError RData := do
  checkName n "CNAME target name is invalid"
  return .cname n

def newPTR (n : Name) : Except WireError RData := do
  checkName n "PTR name is invalid"
  return .ptr n

def newDNAME (n : Name) : Except WireError RData := do
  checkName n "DNAME target name is invalid"
  return .dname n

def newMX (pref : UInt16) (n : Name) : Except WireError RData := do
  checkName n "MX exchange name is invalid"
  return .mx ⟨pref, n⟩

def newSRV (priority weight port : UInt16) (n : Name) : Except WireError RData := do
  checkName n "SRV target name is invalid"
  return .srv ⟨priority, weight, port, n⟩

/-- `NewTXT` behind the strings that are checked already. -/
def newTXTFrom : (i : Nat) → List Bytes → Except WireError (List Decoder.CharString)
  | _, [] => .ok []
  | i, s :: strs =>
    if h : s.length ≤ 255 then do
      let rest ← newTXTFrom (i + 1) strs
      return ⟨s, h⟩ :: rest
    else .error ⟨.invalidRData, s!"TXT string {i} exceeds 255 bytes"⟩

def newTXT (strs : List Bytes) : Except WireError RData := do
  let strs ← newTXTFrom 0 strs
  return .txt strs

def newCAA (flags : UInt8) (tag value : Bytes) : Except WireError RData :=
  if tag.length = 0 ∨ tag.length > 15 then .error ⟨.invalidRData, "CAA tag must be 1-15 bytes"⟩
  else if ¬∀ c ∈ tag, isAlnum c then .error ⟨.invalidRData, "CAA tag must be alnum"⟩
  else .ok (.caa ⟨flags, tag, value⟩)

def dsDigestLen (digestT : UInt8) : Nat :=
  if digestT = 1 then 20 else if digestT = 2 then 32 else if digestT = 4 then 48 else 0

def newDS (keyTag : UInt16) (alg digestT : UInt8) (digest : Bytes) : Except WireError RData :=
  if dsDigestLen digestT ≠ 0 ∧ digest.length ≠ dsDigestLen digestT then
    .error ⟨.invalidRData, s!"DS digest type {digestT.toNat} expects {dsDigestLen digestT} bytes, got {digest.length}"⟩
  else .ok (.ds ⟨keyTag, alg, digestT, digest⟩)

def newDNSKEY (flags : UInt16) (protocol alg : UInt8) (pubkey : Bytes) : Except WireError RData :=
  if protocol ≠ 3 then
    .error ⟨.invalidRData, s!"DNSKEY protocol {protocol.toNat}, RFC 4034 §2.1.2 mandates 3"⟩
  else .ok (.dnskey ⟨flags, protocol, alg, pubkey⟩)

namespace Zonefile

/-! ### Errors -/

/-- The two ways in which `strconv` refuses a number. -/
inductive NumError where
  | invalidSyntax
  | outOfRange
  deriving DecidableEq

inductive FieldError where
  | text (s : String)
  | field (s : String) (f : Bytes)
  /-- A number that `strconv` refuses, and the text in front of that error. -/
  | number (label : String) (f : Bytes) (e : NumError)
  /-- A text of the standard library that does not decode: an address, hexadecimal or base64 data. -/
  | decode (label : String) (f : Bytes)
  /-- An error of the `wire` packages behind a text, which may be empty. -/
  | wire (label : String) (e : WireError)
  deriving DecidableEq

inductive ParseError where
  | lexer (e : LineError)
  /-- `lineErr`. -/
  | fields (line : Nat) (e : FieldError)
  /-- Not of the source: a loop that never ends. -/
  | diverges
  deriving DecidableEq

def wireErr {α : Type} (label : String) (x : Except WireError α) : Except FieldError α := x.mapError (.wire label)

/-! ### Numbers -/

def parseUint (bits : Nat) (s : Bytes) : Except NumError Nat :=
  match readDecimal s with
  | none => .error .invalidSyntax
  | some v => if v < 2 ^ bits then .ok v else .error .outOfRange

def parseInt (bits : Nat) (s : Bytes) : Except NumError Int :=
  let negative := s.head? = some 0x2d
  match readDecimal (if negative ∨ s.head? = some 0x2b then s.tail else s) with
  | none => .error .invalidSyntax
  | some v =>
    if negative then if v ≤ 2 ^ (bits - 1) then .ok (-v) else .error .outOfRange
    else if v < 2 ^ (bits - 1) then .ok v else .error .outOfRange

def numberErr {α : Type} (label : String) (f : Bytes) (x : Except NumError α) : Except FieldError α :=
  x.mapError (.number label f)

/-! ### Lines -/

/-- A field of a line, with whether it was quoted. -/
structure FieldTok where
  text : Bytes
  quoted : Bool
  line : Nat
  deriving DecidableEq

/-- What `readLine` returns, with the state of the lexer. -/
structure Line where
  fields : List FieldTok
  leadingWS : Bool
  eof : Bool
  lexer : Lexer
  rest : Bytes
  deriving DecidableEq

/-- The loop of `readLine`. Every token but the end of the line takes a byte, so the fuel is enough. -/
def readLineLoop : (fuel : Nat) → Lexer → Bytes → (out : List FieldTok) → (leading : Bool) → Except LineError Line
  | 0, l, _, _, _ => .error ⟨l.line, ""⟩
  | fuel + 1, l, rest, out, leading => do
    let t ← l.next rest
    match t.token.kind with
    | .eof => .ok ⟨out, false, true, t.lexer, t.rest⟩
    | .eol => .ok ⟨out, leading, false, t.lexer, t.rest⟩
    | kind =>
      readLineLoop fuel t.lexer t.rest (out ++ [⟨t.token.text, kind = .quoted, t.token.line⟩])
        (if out = [] then t.leading else leading)

def readLine (l : Lexer) (rest : Bytes) : Except LineError Line := readLineLoop (rest.length + 2) l rest [] false

/-! ### Records -/

/-- The state of the parser; `origin` and `prevName` may be the zero name. -/
structure Parser where
  origin : Name
  defaultTTL : Int
  prevName : Name
  records : List Record
  deriving DecidableEq

def maxTTL : Int := 0x7fffffff

/-- A relative name is completed by the origin. -/
def resolveName (p : Parser) (s : Bytes) : Except FieldError Name :=
  if s = [] then .ok p.prevName
  else if s = ascii "@" then
    if !p.origin.isValid then .error (.text "@ used before $ORIGIN") else .ok p.origin
  else if s.getLast? = some 0x2e then wireErr "" (parseName s)
  else if !p.origin.isValid then .error (.field "relative name with no $ORIGIN" s)
  else wireErr "" (parseName (s ++ 0x2e :: p.origin.text))

def parseClass (s : Bytes) : Option RRClass :=
  let s := s.map upperByte
  if s = ascii "IN" then some RRClass.classIN
  else if s = ascii "CH" then some RRClass.classCH
  else if s = ascii "HS" then some RRClass.classHS
  else if s = ascii "ANY" then some RRClass.classANY
  else if s = ascii "NONE" then some RRClass.classNONE
  else none

def withoutBlanks (s : Bytes) : Bytes := s.filter fun c => c ≠ 0x20 ∧ c ≠ 0x09

def decodeErr {α : Type} (label : String) (f : Bytes) : Option α → Except FieldError α
  | some a => .ok a
  | none => .error (.decode label f)

def joinTexts (fields : List FieldTok) : Bytes := fields.flatMap FieldTok.text

def decodeHexFields (label : String) (fields : List FieldTok) : Except FieldError Bytes :=
  decodeErr label (joinTexts fields) (hexDecode (withoutBlanks (joinTexts fields)))

def decodeBase64Fields (texts : Texts) (label : String) (fields : List FieldTok) : Except FieldError Bytes :=
  decodeErr label (joinTexts fields) (texts.parseBase64 (withoutBlanks (joinTexts fields)))

def parseSOATimer (f : FieldTok) (label : String) : Except FieldError Int := do
  let v ← numberErr s!"SOA {label}" f.text (parseUint 32 f.text)
  if (v : Int) > maxTTL then
    .error (.text s!"line {f.line}: SOA {label} {v} out of range (RFC 2308 §8: 0..2147483647)")
  else .ok v

def parseSOA (p : Parser) (fields : List FieldTok) : Except FieldError RData :=
  match fields with
  | [mname, rname, serial, refresh, retry, expire, minimum] => do
    let mname ← resolveName p mname.text
    let rname ← resolveName p rname.text
    let serial ← numberErr "SOA serial" serial.text (parseUint 32 serial.text)
    let refresh ← parseSOATimer refresh "refresh"
    let retry ← parseSOATimer retry "retry"
    let expire ← parseSOATimer expire "expire"
    let minimum ← parseSOATimer minimum "minimum"
    let soa ← wireErr "" (newSOA mname rname (UInt32.ofNat serial) (refresh * second) (retry * second)
      (expire * second) (minimum * second))
    return .soa soa
  | _ => .error (.text s!"SOA: expected 7 fields, got {fields.length}")

def parseSRV (p : Parser) (fields : List FieldTok) : Except FieldError RData :=
  match fields with
  | [pri, wgt, port, target] => do
    let pri ← numberErr "SRV priority" pri.text (parseUint 16 pri.text)
    let wgt ← numberErr "SRV weight" wgt.text (parseUint 16 wgt.text)
    let port ← numberErr "SRV port" port.text (parseUint 16 port.text)
    let target ← resolveName p target.text
    wireErr "" (newSRV (UInt16.ofNat pri) (UInt16.ofNat wgt) (UInt16.ofNat port) target)
  | _ => .error (.text s!"SRV: expected 4 fields (priority weight port target), got {fields.length}")

def parseCAA (fields : List FieldTok) : Except FieldError RData :=
  match fields with
  | [flags, tag, value] => do
    let flags ← numberErr "CAA flags" flags.text (parseUint 8 flags.text)
    wireErr "" (newCAA (UInt8.ofNat flags) tag.text value.text)
  | _ => .error (.text s!"CAA: expected 3 fields (flags tag value), got {fields.length}")

def parseDS (fields : List FieldTok) : Except FieldError RData :=
  match fields with
  | keytag :: alg :: dt :: digest :: more => do
    let keytag ← numberErr "DS keytag" keytag.text (parseUint 16 keytag.text)
    let alg ← numberErr "DS algorithm" alg.text (parseUint 8 alg.text)
    let dt ← numberErr "DS digest-type" dt.text (parseUint 8 dt.text)
    let digest ← decodeHexFields "DS digest" (digest :: more)
    wireErr "DS" (newDS (UInt16.ofNat keytag) (UInt8.ofNat alg) (UInt8.ofNat dt) digest)
  | _ => .error (.text s!"DS: expected ≥4 fields (keytag alg digest-type digest...), got {fields.length}")

def parseDNSKEY (texts : Texts) (fields : List FieldTok) : Except FieldError RData :=
  match fields with
  | flags :: proto :: alg :: key :: more => do
    let flags ← numberErr "DNSKEY flags" flags.text (parseUint 16 flags.text)
    let proto ← numberErr "DNSKEY protocol" proto.text (parseUint 8 proto.text)
    let alg ← numberErr "DNSKEY algorithm" alg.text (parseUint 8 alg.text)
    let key ← decodeBase64Fields texts "DNSKEY public key" (key :: more)
    wireErr "DNSKEY" (newDNSKEY (UInt16.ofNat flags) (UInt8.ofNat proto) (UInt8.ofNat alg) key)
  | _ => .error (.text s!"DNSKEY: expected ≥4 fields (flags protocol alg key...), got {fields.length}")

def unpackPayload (t : RRType) (payload : Bytes) : Except WireError RData :=
  (RData.unpack t payload.length maxPtrHops ⟨payload, 0⟩).1

/-- The form of RFC 3597. -/
def parseGenericRData (t : RRType) (fields : List FieldTok) : Except FieldError RData :=
  match fields with
  | [] => .error (.text "generic rdata: expected <length> [<hex>...]")
  | n :: more => do
    let n ← numberErr "generic rdata length" n.text (parseInt 32 n.text)
    if n < 0 then .error (.text s!"generic rdata: negative length {n}")
    else do
      let payload ← decodeHexFields "generic rdata hex" more
      if payload.length ≠ n then
        .error (.text s!"generic rdata: declared length {n} != {payload.length} hex bytes")
      else wireErr "generic rdata" (unpackPayload t payload)

def parseAddress (texts : Texts) (label kind : String) (size : Nat) (fields : List FieldTok) :
    Except FieldError (Decoder.FixedBytes size) :=
  match fields with
  | [f] => do
    let ip ← decodeErr label f.text (texts.parseAddr f.text)
    if h : ip.length = size then .ok ⟨ip, h⟩ else .error (.field s!"{label}: not an {kind} address" f.text)
  | _ => .error (.text s!"{label}: expected 1 field, got {fields.length}")

def parseTarget (p : Parser) (new : Name → Except WireError RData) (text : String) (fields : List FieldTok) :
    Except FieldError RData :=
  match fields with
  | [f] => do
    let n ← resolveName p f.text
    wireErr "" (new n)
  | _ => .error (.text text)

def parseMX (p : Parser) (fields : List FieldTok) : Except FieldError RData :=
  match fields with
  | [pref, exchange] => do
    let pref ← numberErr "MX preference" pref.text (parseUint 16 pref.text)
    let n ← resolveName p exchange.text
    wireErr "" (newMX (UInt16.ofNat pref) n)
  | _ => .error (.text "MX: expected 2 fields")

def parsePresentation (texts : Texts) (p : Parser) (t : RRType) (fields : List FieldTok) : Except FieldError RData :=
  if t = .a then do
    let r ← parseAddress texts "rdata A" "IPv4" 4 fields
    return .a r
  else if t = .aaaa then do
    let r ← parseAddress texts "AAAA" "IPv6" 16 fields
    return .aaaa r
  else if t = .ns then parseTarget p newNS "NS: expected 1 field" fields
  else if t = .cname then parseTarget p newCNAME "CNAME: expected 1 field" fields
  else if t = .ptr then parseTarget p newPTR "PTR: expected 1 field" fields
  else if t = .mx then parseMX p fields
  else if t = .txt then wireErr "" (newTXT (fields.map FieldTok.text))
  else if t = .soa then parseSOA p fields
  else if t = .srv then parseSRV p fields
  else if t = .caa then parseCAA fields
  else if t = .dname then parseTarget p newDNAME "DNAME: expected 1 field (target)" fields
  else if t = .ds then parseDS fields
  else if t = .dnskey then parseDNSKEY texts fields
  else .error (.field "type not supported in master file parser" t.text)

/-- The generic form, or that of the type. -/
def parseRData (texts : Texts) (p : Parser) (t : RRType) (fields : List FieldTok) : Except FieldError RData :=
  -- the generic form is recognised in the fields of every type, quoted or not
  match fields with
  | f :: more => if f.text = ascii "\\#" then parseGenericRData t more else parsePresentation texts p t fields
  | [] => parsePresentation texts p t fields

/-- TTL and class in either order in front of the type. A class other than `IN` ends the loop. -/
def scanTTLClass : List FieldTok → (ttl : Int) → RRClass → Except ParseError (List FieldTok × Int × RRClass)
  | [], ttl, class_ => .ok ([], ttl, class_)
  | f :: fields, ttl, class_ =>
    if class_ ≠ RRClass.classIN then .ok (f :: fields, ttl, class_)
    else
      match parseInt 64 f.text with
      | .ok t =>
        if t < 0 ∨ t > maxTTL then
          .error (.fields f.line (.text s!"TTL {t} out of range (RFC 2308 §8: 0..2147483647)"))
        else scanTTLClass fields t class_
      | .error _ =>
        match parseClass f.text with
        | some c => scanTTLClass fields ttl c
        | none => .ok (f :: fields, ttl, class_)

def fieldErr {α : Type} (line : Nat) (x : Except FieldError α) : Except ParseError α := x.mapError (.fields line)

/-- One record line; missing fields are taken from the line before. -/
def handleRecord (texts : Texts) (p : Parser) (lineNum : Nat) (owner : Name) (fields : List FieldTok) :
    Except ParseError Parser := do
  let (fields, ttl, class_) ← scanTTLClass fields p.defaultTTL RRClass.classIN
  match fields with
  | [] => .error (.fields lineNum (.text "missing RR type"))
  | f :: rest =>
    match RRType.parse f.text with
    | none => .error (.fields f.line (.field "unknown RR type" f.text))
    | some t =>
      if ttl < 0 then .error (.fields f.line (.text "TTL not set (use $TTL)"))
      else do
        let rd ← fieldErr f.line (parseRData texts p t rest)
        return { p with records := p.records ++ [⟨owner, class_, ttl * second, rd⟩], prevName := owner }

structure Directives where
  handleGenerate : Parser → List FieldTok → Except ParseError Parser
  handleInclude : Parser → List FieldTok → Except ParseError Parser

def handleOrigin (p : Parser) (line : Nat) (args : List FieldTok) : Except ParseError Parser :=
  match args with
  | [f] => do
    let n ← fieldErr line (wireErr "$ORIGIN" (parseName f.text))
    return { p with origin := n }
  | _ => .error (.fields line (.text "$ORIGIN needs one argument"))

def handleTTL (p : Parser) (line : Nat) (args : List FieldTok) : Except ParseError Parser :=
  match args with
  | [f] => do
    let v ← fieldErr line (numberErr "$TTL" f.text (parseInt 64 f.text))
    if v < 0 ∨ v > maxTTL then .error (.fields line (.text s!"$TTL {v} out of range (RFC 2308 §8: 0..2147483647)"))
    else return { p with defaultTTL := v }
  | _ => .error (.fields line (.text "$TTL needs one argument"))

def handleDirective (dirs : Directives) (p : Parser) (first : FieldTok) (args : List FieldTok) : Except ParseError Parser :=
  let word := first.text.map upperByte
  if word = ascii "$ORIGIN" then handleOrigin p first.line args
  else if word = ascii "$TTL" then handleTTL p first.line args
  else if word = ascii "$GENERATE" then dirs.handleGenerate p (first :: args)
  else if word = ascii "$INCLUDE" then dirs.handleInclude p (first :: args)
  else .error (.fields first.line (.field "unknown directive" first.text))

/-- A directive or a record. -/
def handleLine (texts : Texts) (dirs : Directives) (p : Parser) (first : FieldTok) (fields : List FieldTok)
    (leadingWS : Bool) : Except ParseError Parser :=
  if first.text.head? = some 0x24 then handleDirective dirs p first fields
  else if leadingWS then
    if !p.prevName.isValid then .error (.fields first.line (.text "blank owner with no preceding RR"))
    else handleRecord texts p first.line p.prevName (first :: fields)
  else do
    let owner ← fieldErr first.line (resolveName p first.text)
    handleRecord texts p first.line owner fields

/-- The loop of `run`. A logical line takes at least one byte, so the fuel is enough. -/
def run (texts : Texts) (dirs : Directives) : (fuel : Nat) → Parser → Lexer → Bytes → Except ParseError Parser
  | 0, _, l, _ => .error (.lexer ⟨l.line, ""⟩)
  | fuel + 1, p, l, rest => do
    let line ← (readLine l rest).mapError .lexer
    match line.fields with
    | [] => if line.eof then .ok p else run texts dirs fuel p line.lexer line.rest
    | first :: fields => do
      let p ← handleLine texts dirs p first fields line.leadingWS
      run texts dirs fuel p line.lexer line.rest

end Zonefile

end Acidns
