import Acidns.Zonefile.Parser

/-!
# The directives with files of their own

`zonefile/generate.go` and `zonefile/include.go`, and `Parse` with its options. An error that the source
wraps is the inner error here: the prefix of `$GENERATE` and the note where a file was included from are left
out, and so is the label of the source in front of a line number.
-/

namespace Acidns.Zonefile

/-! ### `$GENERATE` -/

def defaultGenerateMaxIterations : Int := 65536

/-- `int64` arithmetic. -/
def wrap64 (v : Int) : Int := v.bmod (2 ^ 64)

/-- `start-stop/step` of a `$GENERATE` line. -/
structure GenerateRange where
  start : Int
  stop : Int
  step : Int
  deriving DecidableEq

def GenerateRange.iterations (g : GenerateRange) : Int := wrap64 ((g.stop - g.start).tdiv g.step + 1)

def parseGenerateStep (s : Bytes) : Except FieldError Int :=
  if s = [] then .ok 1
  else do
    let step ← numberErr "step" s (parseInt 64 s)
    if step ≤ 0 then .error (.text s!"step {step} must be positive") else .ok step

def parseGenerateRange (s : Bytes) : Except FieldError GenerateRange := do
  let bounds := s.takeWhile (· ≠ 0x2f)
  let stepStr := (s.dropWhile (· ≠ 0x2f)).drop 1
  let startStr := bounds.takeWhile (· ≠ 0x2d)
  let stopStr := (bounds.dropWhile (· ≠ 0x2d)).drop 1
  if startStr = [] ∨ stopStr = [] then .error (.field "expected start-stop" bounds)
  else do
    let start ← numberErr "start" startStr (parseInt 64 startStr)
    let stop ← numberErr "stop" stopStr (parseInt 64 stopStr)
    if start < 0 ∨ stop < 0 then .error (.text s!"negative bound (start={start}, stop={stop})")
    else if stop < start then .error (.text s!"stop {stop} less than start {start}")
    else do
      let step ← parseGenerateStep stepStr
      return ⟨start, stop, step⟩

def formatInt (v : Int) (base : Nat) : Bytes :=
  (if v < 0 then [0x2d] else []) ++ (Nat.toDigits base v.natAbs).map fun c => UInt8.ofNat c.toNat

/-- The three parts of a substitution; `strings.SplitN` leaves further commas in the last one. -/
def splitSubst (spec : Bytes) : Bytes × Bytes × Bytes :=
  let offset := spec.takeWhile (· ≠ 0x2c)
  let rest := (spec.dropWhile (· ≠ 0x2c)).drop 1
  (offset, rest.takeWhile (· ≠ 0x2c), (rest.dropWhile (· ≠ 0x2c)).drop 1)

def renderSubst (format : UInt8) (n : Int) : Except FieldError Bytes :=
  if format = 0x64 then .ok (formatInt n 10)
  else if format = 0x6f then .ok (formatInt n 8)
  else if format = 0x78 then .ok (formatInt n 16)
  else if format = 0x58 then .ok ((formatInt n 16).map upperByte)
  else .error (.field "unsupported format (want d, o, x, or X)" [format])

def padSubst (width : Int) (rendered : Bytes) : Bytes :=
  let pad := List.replicate (width - rendered.length).toNat 0x30
  if rendered.head? = some 0x2d then 0x2d :: (pad ++ rendered.tail) else pad ++ rendered

def substNumber (label : String) (s : Bytes) : Except FieldError Int :=
  if s = [] then .ok 0 else numberErr label s (parseInt 64 s)

def substFormat (s : Bytes) : Except FieldError UInt8 :=
  match s with
  | [] => .ok 0x64
  | [format] => .ok format
  | _ => .error (.field "format must be a single character" s)

/-- `${offset,width,format}`. -/
def formatGenerateSubst (spec : Bytes) (value : Int) : Except FieldError Bytes := do
  let (offsetStr, widthStr, formatStr) := splitSubst spec
  let offset ← substNumber "offset" offsetStr
  let width ← substNumber "width" widthStr
  if width < 0 then .error (.text s!"width {width} must be non-negative")
  else do
    let format ← substFormat formatStr
    let rendered ← renderSubst format (wrap64 (value + offset))
    return padSubst width rendered

/-- The loop of `substituteGenerate`; every round takes a byte of the template. -/
def substituteLoop (value : Int) : (fuel i : Nat) → (template sb : Bytes) → Except FieldError Bytes
  | 0, _, _, sb => .ok sb
  | _ + 1, _, [], sb => .ok sb
  | fuel + 1, i, c :: rest, sb =>
    if c = 0x5c ∧ rest.head? = some 0x24 then substituteLoop value fuel (i + 2) rest.tail (sb ++ [0x24])
    else if c ≠ 0x24 then substituteLoop value fuel (i + 1) rest (sb ++ [c])
    else if rest.head? = some 0x7b then
      match rest.tail.dropWhile (· ≠ 0x7d) with
      | [] => .error (.text s!"unterminated $\x7b at offset {i}")
      | _ :: behind => do
        let spec := rest.tail.takeWhile (· ≠ 0x7d)
        let formatted ← formatGenerateSubst spec value
        substituteLoop value fuel (i + 3 + spec.length) behind (sb ++ formatted)
    else substituteLoop value fuel (i + 1) rest (sb ++ formatInt value 10)

/-- The template with every `$` replaced. -/
def substituteGenerate (template : Bytes) (value : Int) : Except FieldError Bytes :=
  substituteLoop value template.length 0 template []

def substituteTok (value : Int) (tok : FieldTok) : Except FieldError FieldTok := do
  let text ← substituteGenerate tok.text value
  return { tok with text := text }

structure GenerateLine where
  line : Nat
  range : GenerateRange
  lhs : Bytes
  ttl : Int
  class_ : RRClass
  typ : RRType
  rhs : List FieldTok

def generateRecord (texts : Texts) (g : GenerateLine) (p : Parser) (v : Int) : Except ParseError Parser := do
  let ownerStr ← fieldErr g.line (substituteGenerate g.lhs v)
  let owner ← fieldErr g.line (resolveName p ownerStr)
  let sub ← fieldErr g.line (g.rhs.mapM (substituteTok v))
  let rd ← fieldErr g.line (parseRData texts p g.typ sub)
  return { p with records := p.records ++ [⟨owner, g.class_, g.ttl * second, rd⟩], prevName := owner }

/-- The loop over the values, which wrap: one that has not ended after as many rounds as there are values never does. -/
def generateLoop (texts : Texts) (g : GenerateLine) : (fuel : Nat) → Int → Parser → Except ParseError Parser
  | 0, _, _ => .error .diverges
  | fuel + 1, v, p => do
    let p ← generateRecord texts g p v
    if v = g.range.stop then .ok p
    else if wrap64 (v + g.range.step) > g.range.stop then .ok p
    else generateLoop texts g fuel (wrap64 (v + g.range.step)) p

def generateError : ParseError → ParseError
  | .fields line (.text s) => .fields line (.text ("$GENERATE " ++ s))
  | e => e

def handleGenerateRest (texts : Texts) (p : Parser) (line : Nat) (range : GenerateRange) (lhs : Bytes)
    (rest : List FieldTok) : Except ParseError Parser := do
  let (rest, ttl, class_) ← (scanTTLClass rest p.defaultTTL RRClass.classIN).mapError generateError
  match rest with
  | [] => .error (.fields line (.text "$GENERATE: missing RR type"))
  | f :: rhs =>
    match RRType.parse f.text with
    | none => .error (.fields f.line (.field "$GENERATE: unknown RR type" f.text))
    | some t =>
      if ttl < 0 then .error (.fields line (.text "$GENERATE: TTL not set (use $TTL or supply explicit TTL)"))
      else generateLoop texts ⟨line, range, lhs, ttl, class_, t, rhs⟩ (2 ^ 64) range.start p

/-- One `$GENERATE` line. -/
def handleGenerate (texts : Texts) (maxIterations : Int) (p : Parser) (fields : List FieldTok) : Except ParseError Parser :=
  match fields with
  | first :: rng :: lhs :: r :: r' :: more => do
    let range ← fieldErr first.line (parseGenerateRange rng.text)
    if range.iterations > maxIterations then
      .error (.fields first.line (.text s!"$GENERATE: {range.iterations} iterations exceeds cap {maxIterations} (see WithGenerateMaxIterations)"))
    else handleGenerateRest texts p first.line range lhs.text (r :: r' :: more)
  | [] => .error (.fields 0 (.text "$GENERATE: expected at least 4 arguments, got 0"))
  | first :: args => .error (.fields first.line (.text s!"$GENERATE: expected at least 4 arguments, got {args.length}"))

/-! ### `$INCLUDE` -/

/-- `ResolveInclude`: the content of a file and its canonical name, for the including file and the name. -/
abbrev IncludeResolver := Bytes → Bytes → Except String (Bytes × Bytes)

def defaultIncludeMaxDepth : Nat := 8

def includeOrigin (p : Parser) (line : Nat) (args : List FieldTok) : Except ParseError Name :=
  match args with
  | [] => .ok p.origin
  | f :: _ => fieldErr line (wireErr "$INCLUDE <domain-name>" (parseName f.text))

/-- One `$INCLUDE`, where `nested` parses a file. Its records are kept; its origin, TTL and last owner are not. -/
def handleInclude (resolver : Option IncludeResolver) (source : Bytes) (allowed : Bool) (depth : Nat)
    (nested : Bytes → Parser → Bytes → Except ParseError Parser) (p : Parser) (fields : List FieldTok) :
    Except ParseError Parser :=
  match resolver, fields with
  | none, _ =>
    .error (.fields ((fields.head?.map FieldTok.line).getD 0) (.text "$INCLUDE not enabled (supply WithIncludeResolver)"))
  | some resolve, first :: file :: args =>
    if args.length > 1 then
      .error (.fields first.line (.text s!"$INCLUDE expects <file-name> [<domain-name>], got {args.length + 1} args"))
    else if !allowed then
      .error (.fields first.line (.text s!"$INCLUDE depth {depth} exceeds cap (use WithIncludeMaxDepth)"))
    else do
      let origin ← includeOrigin p first.line args
      match resolve source file.text with
      | .error e => .error (.fields first.line (.field s!"$INCLUDE: {e}" file.text))
      | .ok (content, canonical) => do
        let included ← nested canonical ⟨origin, p.defaultTTL, .zero, []⟩ content
        return { p with records := p.records ++ included.records }
  | some _, _ =>
    .error (.fields ((fields.head?.map FieldTok.line).getD 0)
      (.text s!"$INCLUDE expects <file-name> [<domain-name>], got {fields.length - 1} args"))

/-! ### `Parse` -/

/-- The options of `Parse`; a bound that is not positive is the default one. -/
structure ParseConfig where
  origin : Name
  defaultTTL : Int
  maxGenerateIterations : Int
  source : Bytes
  includeResolver : Option IncludeResolver
  maxIncludeDepth : Nat

def defaultParseConfig : ParseConfig := ⟨.zero, -1, defaultGenerateMaxIterations, [], none, defaultIncludeMaxDepth⟩

namespace ParseConfig

def generateCap (c : ParseConfig) : Int :=
  if c.maxGenerateIterations ≤ 0 then defaultGenerateMaxIterations else c.maxGenerateIterations

def includeCap (c : ParseConfig) : Nat := if c.maxIncludeDepth = 0 then defaultIncludeMaxDepth else c.maxIncludeDepth

/-- The directives of a file from which files may be included `n` levels deeper. -/
def directives (texts : Texts) (c : ParseConfig) : (n : Nat) → (source : Bytes) → Directives
  | 0, source =>
    ⟨handleGenerate texts c.generateCap,
      handleInclude c.includeResolver source false c.includeCap fun _ p _ => .ok p⟩
  | n + 1, source =>
    ⟨handleGenerate texts c.generateCap,
      handleInclude c.includeResolver source true c.includeCap fun canonical p content =>
        run texts (directives texts c n canonical) (content.length + 2) p newLexer content⟩

def start (c : ParseConfig) : Parser := ⟨c.origin, c.defaultTTL, .zero, []⟩

def parse (texts : Texts) (c : ParseConfig) (s : Bytes) : Except ParseError Zone := do
  let p ← run texts (c.directives texts c.includeCap c.source) (s.length + 2) c.start newLexer s
  return ⟨p.origin, p.records⟩

end ParseConfig

end Acidns.Zonefile
