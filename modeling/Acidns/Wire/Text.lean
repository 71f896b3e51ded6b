import Acidns.Lib.Numeral
import Acidns.Lib.Program
import Acidns.Wire.Hierarchy

/-!
# Names as text

`Parse`, `FromLabels` and `String` of `wirebb/name.go`. A name that is read from a message, or made of
labels, has its letters in lower case; a name that is parsed has them so unless a decimal escape writes
an upper-case letter, which is stored as it is. The names here therefore come without the invariant of
`Name`.
-/

namespace Acidns

open List

open Labels (IsLabel)
open Numeral (isDigit)

/-- A name of the source, with whatever its constructors put into it. -/
structure RawName where
  wire : Bytes
  deriving DecidableEq

namespace RawName

def root : RawName := ⟨[0]⟩

def isValid (n : RawName) : Bool := n.wire.length > 0

def isRoot (n : RawName) : Bool := n.wire = [0]

def labels (n : RawName) : List Bytes := if n.isValid then Labels.split n.wire else []

/-- The name without its first label. -/
def parent (n : RawName) : Option RawName :=
  if !n.isValid || n.isRoot then none else some ⟨n.wire.drop (1 + (n.wire.headD 0).toNat)⟩

def equal (n o : RawName) : Bool := n.wire = o.wire

/-! ### Writing -/

/-- `\DDD`. -/
def decimalEscape (c : UInt8) : Bytes :=
  [0x5c, 0x30 + UInt8.ofNat (c.toNat / 100), 0x30 + UInt8.ofNat (c.toNat / 10 % 10), 0x30 + UInt8.ofNat (c.toNat % 10)]

/-- Dots and backslashes are quoted, unprintable bytes are written in decimal. -/
def escapeByte (c : UInt8) : Bytes :=
  if c = 0x2e ∨ c = 0x5c then [0x5c, c]
  else if c < 0x21 ∨ c > 0x7e then decimalEscape c
  else [c]

def escapeLabel (l : Bytes) : Bytes := l.flatMap escapeByte ++ [0x2e]

/-- The name in presentation format, with its final dot. -/
def string (n : RawName) : Bytes :=
  if !n.isValid then []
  else if n.isRoot then [0x2e]
  else n.labels.flatMap escapeLabel

end RawName

/-! ### Parsing -/

/-- A dot ends a label that must not be empty. -/
def flushLabel (label wire : Bytes) : Except WireError Bytes :=
  if label.length = 0 then .error (invalidName "empty label")
  else if label.length > maxLabelLen then .error (invalidName "label exceeds 63 bytes")
  else if (wire ++ UInt8.ofNat label.length :: label).length > maxNameLen then
    .error (invalidName "name exceeds 255 bytes")
  else .ok (wire ++ UInt8.ofNat label.length :: label)

/-- One more byte of the label being read. -/
def appendLabel (label : Bytes) (c : UInt8) : Except WireError Bytes :=
  if c = 0 then .error (invalidName "0x00 not allowed inside a label (RFC 1035 §3.1)")
  else if label.length ≥ maxLabelLen then .error (invalidName "label exceeds 63 bytes")
  else .ok (label ++ [c])

/-- The value of a `\DDD` escape. -/
def decimalValue (d1 d2 d3 : UInt8) : Nat :=
  (d1 - 0x30).toNat * 100 + (d2 - 0x30).toNat * 10 + (d3 - 0x30).toNat

/-- The loop of `Parse`, with the label and the wire form so far. -/
def parseLoop : Bytes → (label wire : Bytes) → Except WireError (Bytes × Bytes)
  | [], label, wire => .ok (label, wire)
  | c :: s, label, wire =>
    if c = 0x2e then do
      let wire ← flushLabel label wire
      parseLoop s [] wire
    else if c = 0x5c then
      match s with
      | [] => .error (invalidName "trailing backslash")
      | next :: s =>
        if isDigit next then
          match s with
          | d2 :: d3 :: s =>
            if !isDigit d2 || !isDigit d3 then .error (invalidName "bad decimal escape")
            else if decimalValue next d2 d3 > 255 then .error (invalidName "decimal escape > 255")
            else do
              -- the value is not folded
              let label ← appendLabel label (UInt8.ofNat (decimalValue next d2 d3))
              parseLoop s label wire
          | _ => .error (invalidName "truncated decimal escape")
        else do
          let label ← appendLabel label (foldByte next)
          parseLoop s label wire
    else do
      let label ← appendLabel label (foldByte c)
      parseLoop s label wire

/-- The last label need not be followed by a dot. -/
def closeLabel (label wire : Bytes) : Except WireError Bytes :=
  if label.length > 0 then flushLabel label wire else .ok wire

def closeName (wire : Bytes) : Except WireError RawName :=
  if (wire ++ [0]).length > maxNameLen then .error (invalidName "name exceeds 255 bytes") else .ok ⟨wire ++ [0]⟩

/-- A name from its presentation format. -/
def parse (s : Bytes) : Except WireError RawName :=
  if s = [] then .error (invalidName "empty")
  else if s = [0x2e] then .ok .root
  else do
    let (label, wire) ← parseLoop s [] []
    let wire ← closeLabel label wire
    closeName wire

def fromLabelsLoop : List Bytes → (wire : Bytes) → Except WireError Bytes
  | [], wire => .ok wire
  | l :: ls, wire =>
    if l.length = 0 then .error (invalidName "empty label")
    else if l.length > maxLabelLen then .error (invalidName "label exceeds 63 bytes")
    else fromLabelsLoop ls (wire ++ UInt8.ofNat l.length :: foldLabel l)

/-- A name from its labels, taken as raw bytes. -/
def fromLabels (ls : List Bytes) : Except WireError RawName :=
  if ls = [] then .ok .root
  else do
    let wire ← fromLabelsLoop ls []
    closeName wire

/-- The ways of the package to make a name. -/
inductive NameCall where
  | text (s : Bytes)
  | labels (ls : List Bytes)
  | message (msg : Bytes) (off : Nat)
  | uncompressed (msg : Bytes) (off : Nat)

/-- The name that the call returns. -/
def NameCall.run : NameCall → Except WireError RawName
  | .text s => parse s
  | .labels ls => fromLabels ls
  | .message msg off => do
    let (n, _) ← decodeWire maxPtrHops msg off
    .ok ⟨n.wire⟩
  | .uncompressed msg off => do
    let (n, _) ← decodeWireUncompressed msg off
    .ok ⟨n.wire⟩

/-- The names that the constructors and `Parent` yield. -/
inductive Obtainable : RawName → Prop
  | made {c : NameCall} {n : RawName} (h : c.run = .ok n) : Obtainable n
  | parent {n p : RawName} (hn : Obtainable n) (h : n.parent = some p) : Obtainable p

/-! ### What a text writes -/

/-- A dot, or a byte of a label with whether it is written in decimal. -/
inductive Token where
  | dot
  | byte (v : UInt8) (decimal : Bool)
  deriving DecidableEq

/-- The text as dots and bytes; none when an escape is broken. -/
def tokens : Bytes → Option (List Token)
  | [] => some []
  | c :: s =>
    if c = 0x2e then (tokens s).map (.dot :: ·)
    else if c = 0x5c then
      match s with
      | [] => none
      | next :: s =>
        if isDigit next then
          match s with
          | d2 :: d3 :: s =>
            if !isDigit d2 || !isDigit d3 then none
            else if decimalValue next d2 d3 > 255 then none
            else (tokens s).map (.byte (UInt8.ofNat (decimalValue next d2 d3)) true :: ·)
          | _ => none
        else (tokens s).map (.byte next false :: ·)
    else (tokens s).map (.byte c false :: ·)

section Tokens

variable {c next d2 d3 : UInt8} {s : Bytes}

theorem tokens_dot (s : Bytes) : tokens (0x2e :: s) = (tokens s).map (.dot :: ·) := by
  rw [tokens.eq_def]
  rfl

theorem tokens_decimal (hnext : isDigit next) (hdigits : ¬(!isDigit d2 || !isDigit d3) = true)
    (hvalue : ¬decimalValue next d2 d3 > 255) : tokens (0x5c :: next :: d2 :: d3 :: s) =
      (tokens s).map (.byte (UInt8.ofNat (decimalValue next d2 d3)) true :: ·) := by
  rw [tokens.eq_def]
  simp only [hnext, if_true]
  rw [if_neg (by decide), if_neg hdigits, if_neg hvalue]

theorem tokens_char (hnext : ¬isDigit next = true) :
    tokens (0x5c :: next :: s) = (tokens s).map (.byte next false :: ·) := by
  rw [tokens.eq_def]
  simp only [hnext, if_true, if_false, Bool.false_eq_true]
  rw [if_neg (by decide)]

theorem tokens_plain (hdot : ¬c = 0x2e) (hslash : ¬c = 0x5c) :
    tokens (c :: s) = (tokens s).map (.byte c false :: ·) := by
  rw [tokens.eq_def]
  simp only [hdot, hslash, if_false]

end Tokens

/-- The labels between the dots, each byte as `f` keeps it; a text may end in a dot. -/
def labelsOf (f : UInt8 → Bool → UInt8) : Bytes → List Token → List Bytes
  | cur, [] => if cur = [] then [] else [cur]
  | cur, .dot :: ts => cur :: labelsOf f [] ts
  | cur, .byte v decimal :: ts => labelsOf f (cur ++ [f v decimal]) ts

/-- The labels that the text writes, before any folding. -/
def written (s : Bytes) : Option (List Bytes) :=
  if s = [0x2e] then some [] else (tokens s).map (labelsOf (fun v _ => v) [])

/-- `Parse` keeps what is written in decimal and folds the rest. -/
def keptByte (v : UInt8) (decimal : Bool) : UInt8 := if decimal then v else foldByte v

/-- An upper-case letter is written as a decimal escape. -/
def EscapesUpper (s : Bytes) : Prop := ∃ ts, tokens s = some ts ∧ ∃ v, .byte v true ∈ ts ∧ foldByte v ≠ v

variable {label wire wire' label' s : Bytes} {v : UInt8} {decimal : Bool} {n : RawName} {ls : List Bytes}
  {f : UInt8 → Bool → UInt8} {ts : List Token}

theorem flushLabel_ok (h : flushLabel label wire = .ok wire') :
    IsLabel label ∧ wire' = wire ++ UInt8.ofNat label.length :: label := by
  grind [flushLabel, maxLabelLen, Labels.IsLabel]

theorem appendLabel_ok {c : UInt8} (h : appendLabel label c = .ok label') :
    c ≠ 0 ∧ label' = label ++ [c] := by
  grind [appendLabel]

/-- What the loop has read: labels gone to the wire, and the label at hand. -/
def Gathers (s label wire label' wire' : Bytes) : Prop :=
  ∃ ts ls, tokens s = some ts ∧ (∀ l ∈ ls, IsLabel l) ∧ wire' = wire ++ Labels.body ls ∧
    labelsOf keptByte label ts = ls ++ if label' = [] then [] else [label']

theorem Gathers.byte {s' : Bytes}
    (htokens : tokens s' = (tokens s).map (.byte v decimal :: ·))
    (h : Gathers s (label ++ [keptByte v decimal]) wire label' wire') : Gathers s' label wire label' wire' := by
  obtain ⟨ts, ls, hts, hls, hwire, hlabels⟩ := h
  refine ⟨.byte v decimal :: ts, ls, ?_, hls, hwire, hlabels⟩
  rw [htokens, hts]
  rfl

theorem parseLoop_ok (h : parseLoop s label wire = .ok (label', wire')) :
    Gathers s label wire label' wire' := by
  fun_induction parseLoop s label wire with
  | case1 label wire =>
    cases h
    exact ⟨[], [], rfl, forall_mem_nil _, (append_nil _).symm, rfl⟩
  | case2 s label wire ih =>
    obtain ⟨_, hflush, h⟩ := bind_ok h
    obtain ⟨hlabel, rfl⟩ := flushLabel_ok hflush
    obtain ⟨ts, ls, hts, hls, hwire, hlabels⟩ := ih _ h
    refine ⟨.dot :: ts, label :: ls, ?_, forall_mem_cons.mpr ⟨hlabel, hls⟩, ?_, ?_⟩
    · rw [tokens_dot, hts]
      rfl
    · rw [hwire, Labels.body_cons, append_assoc]
    · rw [labelsOf, hlabels, cons_append]
  | case6 label wire next hnext d2 d3 s hdigits hvalue _ ih =>
    obtain ⟨_, hlabel, h⟩ := bind_ok h
    obtain ⟨-, rfl⟩ := appendLabel_ok hlabel
    exact Gathers.byte (tokens_decimal hnext hdigits hvalue) (ih _ h)
  | case8 label wire next s hnext _ ih =>
    obtain ⟨_, hlabel, h⟩ := bind_ok h
    obtain ⟨-, rfl⟩ := appendLabel_ok hlabel
    exact Gathers.byte (tokens_char hnext) (ih _ h)
  | case9 c s label wire hdot hslash ih =>
    obtain ⟨_, hlabel, h⟩ := bind_ok h
    obtain ⟨-, rfl⟩ := appendLabel_ok hlabel
    exact Gathers.byte (tokens_plain hdot hslash) (ih _ h)
  | _ => cases h

theorem closeLabel_ok (h : closeLabel label wire = .ok wire') :
    (∀ l ∈ if label = [] then [] else [label], IsLabel l) ∧
      wire' = wire ++ Labels.body (if label = [] then [] else [label]) := by
  unfold closeLabel at h
  by_cases hlabel : label = []
  · rw [if_pos hlabel]
    rw [hlabel] at h
    exact ⟨forall_mem_nil _, (Except.ok.inj h).symm.trans (append_nil _).symm⟩
  · rw [if_neg hlabel]
    rw [if_pos (length_pos_iff.mpr hlabel)] at h
    obtain ⟨hlabel, rfl⟩ := flushLabel_ok h
    exact ⟨by simpa using hlabel, by simp [Labels.body]⟩

theorem closeName_ok (h : closeName wire = .ok n) :
    n.wire = wire ++ [0] ∧ n.wire.length ≤ maxNameLen := by
  grind [closeName]

/-- The name holds these labels. -/
def RawName.Encodes (n : RawName) (ls : List Bytes) : Prop :=
  (∀ l ∈ ls, IsLabel l) ∧ n.wire = Labels.encode ls ∧ n.wire.length ≤ maxNameLen

theorem parse_ok (h : parse s = .ok n) (hroot : s ≠ [0x2e]) :
    ∃ ts, tokens s = some ts ∧ n.Encodes (labelsOf keptByte [] ts) := by
  unfold parse at h
  split at h; · cases h
  obtain ⟨⟨label, wire⟩, hloop, h⟩ := bind_ok h
  obtain ⟨wire', hclose, h⟩ := bind_ok h
  obtain ⟨ts, ls, hts, hls, hwire, hlabels⟩ := parseLoop_ok hloop
  obtain ⟨hlast, rfl⟩ := closeLabel_ok hclose
  obtain ⟨hn, hlen⟩ := closeName_ok h
  refine ⟨ts, hts, ?_, ?_, hlen⟩
  · rw [hlabels]
    exact forall_mem_append.mpr ⟨hls, hlast⟩
  · simp [Labels.encode_eq_body, Labels.body, *]

/-! ### The representation of names -/

theorem fromLabelsLoop_ok {ls : List Bytes} {wire wire' : Bytes} (h : fromLabelsLoop ls wire = .ok wire') :
    (∀ l ∈ ls, IsLabel l) ∧ wire' = wire ++ Labels.body (ls.map foldLabel) := by
  induction ls generalizing wire with
  | nil => exact ⟨forall_mem_nil _, (Except.ok.inj h).symm.trans (append_nil _).symm⟩
  | cons l ls ih => grind [fromLabelsLoop, IsLabel, maxLabelLen, Labels.body_cons, length_foldLabel]

theorem isLabel_map_foldLabel (hls : ∀ l ∈ ls, IsLabel l) : ∀ l ∈ ls.map foldLabel, IsLabel l := by
  rw [forall_mem_map]
  intro l hl
  rw [IsLabel, length_foldLabel]
  exact hls l hl

theorem fromLabels_ok (h : fromLabels ls = .ok n) : n.Encodes (ls.map foldLabel) := by
  unfold fromLabels at h
  split at h
  · next hnil =>
    cases h
    rw [hnil]
    exact ⟨forall_mem_nil _, rfl, by decide⟩
  · obtain ⟨wire, hloop, h⟩ := bind_ok h
    obtain ⟨hls, rfl⟩ := fromLabelsLoop_ok hloop
    obtain ⟨hn, hlen⟩ := closeName_ok h
    refine ⟨isLabel_map_foldLabel hls, ?_, hlen⟩
    rw [hn, nil_append, Labels.encode_eq_body]

theorem labelsOf_map {g : UInt8 → Bool → UInt8}
    (h : ∀ v decimal, .byte v decimal ∈ ts → f v decimal = foldByte (g v decimal)) (cur : Bytes) :
    labelsOf f (foldLabel cur) ts = (labelsOf g cur ts).map foldLabel := by
  induction ts generalizing cur with
  | nil =>
    cases cur <;> rfl
  | cons t ts ih =>
    have ih := ih fun v decimal hmem => h v decimal (.tail _ hmem)
    cases t with
    | dot =>
      exact congrArg _ (ih [])
    | byte v decimal => grind [foldLabel, foldByte, labelsOf]

theorem parse_encodes (h : parse s = .ok n) (hupper : ¬EscapesUpper s) :
    ∃ ls, written s = some ls ∧ n.Encodes (ls.map foldLabel) := by
  by_cases hroot : s = [0x2e]
  · subst hroot
    cases h
    exact ⟨[], rfl, forall_mem_nil _, rfl, by decide⟩
  · obtain ⟨ts, hts, hn⟩ := parse_ok h hroot
    refine ⟨labelsOf (fun v _ => v) [] ts, ?_, ?_⟩
    · rw [written, if_neg hroot, hts]
      rfl
    · rw [← labelsOf_map (f := keptByte)]
      · exact hn
      · intro v decimal hmem
        cases decimal with
        | false => rfl
        | true =>
          by_contra hne
          exact hupper ⟨ts, hts, v, hmem, Ne.symm hne⟩

theorem mem_labelsOf (cur : Bytes)
    (h : .byte v decimal ∈ ts) : ∃ l ∈ labelsOf f cur ts, f v decimal ∈ l := by
  have hcur : ∀ (ts : List Token) (cur : Bytes), ∀ b ∈ cur, ∃ l ∈ labelsOf f cur ts, b ∈ l := by
    intro ts
    induction ts with
    | nil =>
      intro cur b hb
      rw [labelsOf, if_neg (ne_nil_of_mem hb)]
      exact ⟨cur, mem_singleton_self cur, hb⟩
    | cons t ts ih =>
      intro cur b hb
      cases t with
      | dot => exact ⟨cur, .head _, hb⟩
      | byte v decimal => exact ih (cur ++ [f v decimal]) b (mem_append_left _ hb)
  induction ts generalizing cur with
  | nil => exact absurd h not_mem_nil
  | cons t ts ih =>
    cases t with
    | dot =>
      obtain ⟨l, hl, hv⟩ := ih [] (mem_of_ne_of_mem Token.noConfusion h)
      exact ⟨l, .tail _ hl, hv⟩
    | byte w decimal' =>
      rcases mem_cons.mp h with heq | hmem
      · injection heq with hv hdecimal
        subst hv hdecimal
        exact hcur ts (cur ++ [f v decimal]) _ (mem_append_right _ (mem_singleton_self _))
      · exact ih _ hmem

namespace RawName

variable {n : RawName} {ls : List Bytes}

theorem Encodes.labels_eq (h : n.Encodes ls) : n.labels = ls := by
  obtain ⟨hls, hwire, -⟩ := h
  have hvalid : n.isValid := by
    rw [isValid, hwire]
    exact decide_eq_true (length_pos_iff.mpr (Labels.encode_ne_nil ls))
  rw [labels, if_pos hvalid, hwire, Labels.split_encode hls]

theorem Encodes.wellFormed_iff (h : n.Encodes ls) : WellFormed n.wire ↔ ls.map foldLabel = ls := by
  obtain ⟨hls, hwire, hlen⟩ := h
  constructor
  · rintro ⟨ls', hls', hwire', -⟩
    rw [Labels.encode_injective hls (fun l hl => (hls' l hl).1) (hwire.symm.trans hwire')]
    exact map_foldLabel_eq hls'
  · intro hfold
    refine ⟨ls, fun l hl => ⟨hls l hl, ?_⟩, hwire, hlen⟩
    rw [← hfold] at hl
    obtain ⟨l, -, rfl⟩ := mem_map.mp hl
    intro b hb
    obtain ⟨c, -, rfl⟩ := mem_map.mp hb
    exact foldByte_foldByte c

end RawName

theorem foldLabel_foldLabel (l : Bytes) : foldLabel (foldLabel l) = foldLabel l := by
  simp [foldByte_foldByte, foldLabel]

theorem map_foldLabel_map_foldLabel (ls : List Bytes) : (ls.map foldLabel).map foldLabel = ls.map foldLabel := by
  rw [map_map]
  exact map_congr_left fun l _ => foldLabel_foldLabel l

theorem parse_wellFormed_iff (h : parse s = .ok n) :
    WellFormed n.wire ↔ ¬EscapesUpper s := by
  constructor
  · rintro hn ⟨ts, hts, v, hv, hupper⟩
    have hroot : s ≠ [0x2e] := by
      rintro rfl
      cases hts
      exact absurd hv (by simp)
    obtain ⟨ts', hts', hencodes⟩ := parse_ok h hroot
    cases hts.symm.trans hts'
    obtain ⟨l, hl, hvl⟩ := mem_labelsOf (f := keptByte) [] hv
    obtain ⟨ls', hls', hwire', -⟩ := hn
    rw [Labels.encode_injective hencodes.1 (fun l hl => (hls' l hl).1) (hencodes.2.1.symm.trans hwire')] at hl
    exact hupper ((hls' l hl).2 v hvl)
  · intro hupper
    obtain ⟨ls, -, hencodes⟩ := parse_encodes h hupper
    exact hencodes.wellFormed_iff.mpr (map_foldLabel_map_foldLabel ls)

namespace NameCall

/-- The labels that the call is given. -/
def Writes : NameCall → List Bytes → Prop
  | .text s, ls => written s = some ls
  | .labels ls', ls => ls' = ls
  | .message msg off, ls => ∃ hops next, Labels.Spells msg off ls hops next
  | .uncompressed msg off, ls => ∃ next, Labels.Spells msg off ls 0 next

/-- The call is one of `Parse` on a text with a decimal escape for an upper-case letter. -/
def EscapesUpper : NameCall → Prop
  | .text s => Acidns.EscapesUpper s
  | _ => False

variable {c : NameCall} {n : RawName} {ls ls' : List Bytes}

theorem Writes.unique (h : c.Writes ls) (h' : c.Writes ls') : ls = ls' := by
  cases c with
  | text s => exact Option.some.inj (h.symm.trans h')
  | labels => exact h.symm.trans h'
  | message msg off =>
    obtain ⟨_, _, hspells⟩ := h
    obtain ⟨_, _, hspells'⟩ := h'
    exact hspells.unique hspells'
  | uncompressed msg off =>
    obtain ⟨_, hspells⟩ := h
    obtain ⟨_, hspells'⟩ := h'
    exact hspells.unique hspells'

theorem encodes_of_decoded {msg : Bytes} {off hops next : Nat} {n : Name} (hspells : Labels.Spells msg off ls hops next)
    (hwire : n.wire = Labels.encode (ls.map foldLabel)) : RawName.Encodes ⟨n.wire⟩ (ls.map foldLabel) :=
  ⟨isLabel_map_foldLabel hspells.isLabel, hwire, n.length_wire_le⟩

theorem encodes (h : c.run = .ok n) (hupper : ¬c.EscapesUpper) : ∃ ls, c.Writes ls ∧ n.Encodes (ls.map foldLabel) := by
  cases c with
  | text s => exact parse_encodes h hupper
  | labels ls => exact ⟨ls, rfl, fromLabels_ok h⟩
  | message msg off =>
    obtain ⟨⟨n, next⟩, hn, h⟩ := bind_ok h
    cases h
    obtain ⟨ls, hops, hspells, hwire, -⟩ := spells_of_decodeWire hn
    exact ⟨ls, ⟨hops, next, hspells⟩, encodes_of_decoded hspells hwire⟩
  | uncompressed msg off =>
    obtain ⟨⟨n, next⟩, hn, h⟩ := bind_ok h
    cases h
    obtain ⟨ls, hspells, hwire⟩ := spells_of_decodeWireUncompressed hn
    exact ⟨ls, ⟨next, hspells⟩, encodes_of_decoded hspells hwire⟩

theorem exists_encodes (h : c.run = .ok n) : ∃ ls, n.Encodes ls := by
  by_cases hupper : c.EscapesUpper
  · cases c with
    | text s =>
      by_cases hroot : s = [0x2e]
      · subst hroot
        cases h
        exact ⟨[], forall_mem_nil _, rfl, by decide⟩
      · obtain ⟨ts, -, hencodes⟩ := parse_ok h hroot
        exact ⟨_, hencodes⟩
    | _ => exact hupper.elim
  · obtain ⟨ls, -, hencodes⟩ := encodes h hupper
    exact ⟨_, hencodes⟩

theorem wellFormed_iff (h : c.run = .ok n) : WellFormed n.wire ↔ ¬c.EscapesUpper := by
  cases c with
  | text s => exact parse_wellFormed_iff h
  | _ =>
    refine iff_of_true ?_ id
    obtain ⟨ls, -, hencodes⟩ := encodes h id
    exact hencodes.wellFormed_iff.mpr (map_foldLabel_map_foldLabel ls)

end NameCall

/-- Constructors return labels within the bounds, in lower case unless a decimal escape writes an upper-case letter;
without one, names that differ in case only are equal. -/
theorem names_wellFormed {c : NameCall} {n : RawName} (h : c.run = .ok n) :
    (∃ ls, n.Encodes ls) ∧ (WellFormed n.wire ↔ ¬c.EscapesUpper) ∧
      ∀ {d : NameCall} {m : RawName} {ls ls' : List Bytes}, d.run = .ok m → ¬c.EscapesUpper → ¬d.EscapesUpper →
        c.Writes ls → d.Writes ls' → ls.map foldLabel = ls'.map foldLabel → n.equal m := by
  refine ⟨NameCall.exists_encodes h, NameCall.wellFormed_iff h, ?_⟩
  intro d m ls ls' hd hupper hupper' hls hls' hfold
  obtain ⟨ks, hks, hencodes⟩ := NameCall.encodes h hupper
  obtain ⟨ks', hks', hencodes'⟩ := NameCall.encodes hd hupper'
  rw [hls.unique hks, hls'.unique hks'] at hfold
  rw [RawName.equal, hencodes.2.1, hencodes'.2.1, hfold]
  exact decide_eq_true rfl

theorem names_wellFormed_sample : (NameCall.text [0x41, 0x62, 0x2e]).run = .ok ⟨[2, 0x61, 0x62, 0]⟩ ∧
    WellFormed [2, 0x61, 0x62, 0] ∧ RawName.equal ⟨[2, 0x61, 0x62, 0]⟩ ⟨[2, 0x61, 0x62, 0]⟩ := by
  have hrun : (NameCall.text [0x41, 0x62, 0x2e]).run = .ok ⟨[2, 0x61, 0x62, 0]⟩ := rfl
  have hrun' : (NameCall.labels [[0x61, 0x42]]).run = .ok ⟨[2, 0x61, 0x62, 0]⟩ := rfl
  have hupper : ¬(NameCall.text [0x41, 0x62, 0x2e]).EscapesUpper := by
    rintro ⟨ts, hts, v, hv, -⟩
    cases hts
    simp at hv
  obtain ⟨-, hwf, hequal⟩ := names_wellFormed hrun
  exact ⟨hrun, hwf.mpr hupper, hequal hrun' hupper id rfl rfl rfl⟩

/-- The text `\065` is stored with an upper-case letter, and is not equal to the text `a`. -/
theorem parse_keeps_escaped_upper : parse [0x5c, 0x30, 0x36, 0x35] = .ok ⟨[1, 0x41, 0]⟩ ∧ ¬WellFormed [1, 0x41, 0] ∧
    parse [0x61] = .ok ⟨[1, 0x61, 0]⟩ ∧ RawName.equal ⟨[1, 0x41, 0]⟩ ⟨[1, 0x61, 0]⟩ = false := by
  refine ⟨rfl, ?_, rfl, by decide⟩
  rw [wellFormed_iff_split]
  rintro ⟨hlower, -, -⟩
  exact absurd ((hlower [0x41] (by decide)).2 0x41 (by decide)) (by decide)

/-! ### Writing and parsing back -/

section RoundTrip

variable {c : UInt8} {l label wire t : Bytes} {ls : List Bytes} {n : RawName}

theorem appendLabel_eq (hlen : label.length < maxLabelLen) : appendLabel label c =
    if c = 0 then .error (invalidName "0x00 not allowed inside a label (RFC 1035 §3.1)") else .ok (label ++ [c]) := by
  rw [appendLabel, if_neg (Nat.not_le.mpr hlen)]

theorem decimalEscape_spec (c : UInt8) : ∃ d1 d2 d3, RawName.decimalEscape c = [0x5c, d1, d2, d3] ∧ isDigit d1 ∧
    isDigit d2 ∧ isDigit d3 ∧ decimalValue d1 d2 d3 = c.toNat := by
  refine ⟨_, _, _, rfl, ?_⟩
  have hall : ∀ k : Fin 256, isDigit (0x30 + UInt8.ofNat (k.val / 100)) ∧ isDigit (0x30 + UInt8.ofNat (k.val / 10 % 10)) ∧
      isDigit (0x30 + UInt8.ofNat (k.val % 10)) ∧ decimalValue (0x30 + UInt8.ofNat (k.val / 100))
        (0x30 + UInt8.ofNat (k.val / 10 % 10)) (0x30 + UInt8.ofNat (k.val % 10)) = k.val := by
    decide +kernel
  exact hall ⟨c.toNat, c.toNat_lt⟩

theorem foldByte_of_unprintable : c < 0x21 ∨ c > 0x7e → foldByte c = c :=
  forall_byte (P := fun c => c < 0x21 ∨ c > 0x7e → foldByte c = c) (by decide +kernel) c

theorem foldByte_eq_zero : foldByte c = 0 ↔ c = 0 :=
  forall_byte (P := fun c => foldByte c = 0 ↔ c = 0) (by decide +kernel) c

/-- The parser undoes `escapeByte`, up to case, but for NUL. -/
theorem parseLoop_escapeByte (hlen : label.length < maxLabelLen) :
    parseLoop (RawName.escapeByte c ++ t) label wire =
      if c = 0 then .error (invalidName "0x00 not allowed inside a label (RFC 1035 §3.1)")
      else parseLoop t (label ++ [foldByte c]) wire := by
  have hbind : (appendLabel label (foldByte c) >>= fun label => parseLoop t label wire) =
      if c = 0 then .error (invalidName "0x00 not allowed inside a label (RFC 1035 §3.1)")
      else parseLoop t (label ++ [foldByte c]) wire := by
    rw [appendLabel_eq hlen, if_congr foldByte_eq_zero rfl rfl]
    split <;> rfl
  unfold RawName.escapeByte
  split
  · next hspecial =>
    have hdigit : ¬isDigit c = true := by
      rcases hspecial with rfl | rfl <;> decide
    rw [← hbind, cons_append, parseLoop.eq_def]
    simp only [cons_append, nil_append, hdigit, if_false, if_true, Bool.false_eq_true]
    rw [if_neg (by decide)]
  · next hspecial =>
    obtain ⟨hdot, hslash⟩ := not_or.mp hspecial
    split
    · next hunprintable =>
      obtain ⟨d1, d2, d3, hescape, hd1, hd2, hd3, hvalue⟩ := decimalEscape_spec c
      have hle : ¬c.toNat > 255 := Nat.not_lt.mpr (Nat.le_of_lt_succ c.toNat_lt)
      rw [foldByte_of_unprintable hunprintable] at hbind ⊢
      rw [← hbind, hescape, cons_append, parseLoop.eq_def]
      simp only [cons_append, nil_append, hd1, hd2, hd3, hvalue, hle, if_false, if_true, Bool.not_true,
        Bool.or_self, Bool.false_eq_true, UInt8.ofNat_toNat]
      rw [if_neg (by decide)]
    · rw [← hbind, cons_append, nil_append, parseLoop.eq_def]
      simp only [hdot, hslash, if_false]

theorem parseLoop_escapeBytes (hlen : label.length + l.length ≤ maxLabelLen) :
    parseLoop (l.flatMap RawName.escapeByte ++ t) label wire =
      if 0 ∈ l then .error (invalidName "0x00 not allowed inside a label (RFC 1035 §3.1)")
      else parseLoop t (label ++ foldLabel l) wire := by
  induction l generalizing label with
  | nil =>
    exact congrArg (parseLoop t · wire) (append_nil label).symm
  | cons c l ih => grind [parseLoop_escapeByte, foldLabel]

theorem parseLoop_escapeLabel (hl : IsLabel l) (hlen : wire.length + (1 + l.length) ≤ maxNameLen) :
    parseLoop (RawName.escapeLabel l ++ t) [] wire =
      if 0 ∈ l then .error (invalidName "0x00 not allowed inside a label (RFC 1035 §3.1)")
      else parseLoop t [] (wire ++ UInt8.ofNat l.length :: foldLabel l) := by
  have hpos := hl.1
  have hle : l.length ≤ maxLabelLen := Nat.le_of_lt_succ hl.2
  have hflush : flushLabel (foldLabel l) wire = .ok (wire ++ UInt8.ofNat l.length :: foldLabel l) := by
    grind [flushLabel, length_foldLabel]
  rw [RawName.escapeLabel, append_assoc, parseLoop_escapeBytes (by rw [length_nil]; omega)]
  refine if_congr Iff.rfl rfl ?_
  rw [nil_append, cons_append, parseLoop.eq_def]
  simp only [if_true, hflush]
  rfl

theorem parseLoop_escapeLabels (hls : ∀ l ∈ ls, IsLabel l) (hlen : wire.length + (Labels.body ls).length ≤ maxNameLen) :
    parseLoop (ls.flatMap RawName.escapeLabel) [] wire =
      if 0 ∈ ls.flatten then .error (invalidName "0x00 not allowed inside a label (RFC 1035 §3.1)")
      else .ok ([], wire ++ Labels.body (ls.map foldLabel)) := by
  induction ls generalizing wire with
  | nil =>
    exact congrArg (fun wire => Except.ok ([], wire)) (append_nil wire).symm
  | cons l ls ih =>
    obtain ⟨hl, hls⟩ := forall_mem_cons.mp hls
    rw [Labels.body_cons, length_append, length_cons] at hlen
    rw [flatMap_cons, parseLoop_escapeLabel hl (by omega), flatten_cons]
    by_cases hzero : 0 ∈ l
    · rw [if_pos hzero, if_pos (mem_append_left _ hzero)]
    · have hmem : 0 ∈ l ++ ls.flatten ↔ 0 ∈ ls.flatten := by
        rw [mem_append, or_iff_right hzero]
      rw [if_neg hzero, if_congr hmem rfl rfl, ih hls, map_cons, Labels.body_cons, length_foldLabel, append_assoc]
      rw [length_append, length_cons, length_foldLabel]
      omega

theorem string_eq_of_cons (h : n.Encodes (l :: ls)) : n.string = (l :: ls).flatMap RawName.escapeLabel := by
  have hlabels := h.labels_eq
  obtain ⟨hls, hwire, -⟩ := h
  have hpos := (hls l (.head _)).1
  have hlen : n.wire.length = 1 + l.length + (Labels.encode ls).length := by rw [hwire, Labels.length_encode_cons]
  have hvalid : n.isValid = true := decide_eq_true (by omega)
  have hroot : n.isRoot = false := by
    refine decide_eq_false fun heq => ?_
    rw [heq, length_singleton] at hlen
    omega
  rw [RawName.string, hvalid, hroot, hlabels]
  rfl

theorem parse_string (h : n.Encodes ls) : parse n.string =
    if 0 ∈ ls.flatten then .error (invalidName "0x00 not allowed inside a label (RFC 1035 §3.1)")
    else .ok ⟨Labels.encode (ls.map foldLabel)⟩ := by
  cases ls with
  | nil =>
    have hn : n = .root := congrArg RawName.mk h.2.1
    rw [hn]
    rfl
  | cons l ls =>
    have hpos := (h.1 l (.head _)).1
    have hlen := h.2.2
    rw [h.2.1, Labels.encode_eq_body, length_append, length_singleton] at hlen
    have htwo : 2 ≤ ((l :: ls).flatMap RawName.escapeLabel).length := by
      obtain ⟨c, l', rfl⟩ := exists_cons_of_length_pos hpos
      rw [flatMap_cons, RawName.escapeLabel, flatMap_cons]
      have hescape : 1 ≤ (RawName.escapeByte c).length := by
        unfold RawName.escapeByte RawName.decimalEscape
        split_ifs <;> simp
      simp only [length_append, length_singleton]
      omega
    have hclose : closeName (Labels.body ((l :: ls).map foldLabel)) = .ok ⟨Labels.encode ((l :: ls).map foldLabel)⟩ := by
      grind [closeName, Labels.encode_eq_body, length_encode_map_foldLabel]
    rw [string_eq_of_cons h, parse, if_neg, if_neg, parseLoop_escapeLabels h.1 (by rw [length_nil]; omega)]
    · split
      · rfl
      · exact hclose
    · intro heq
      rw [heq, length_singleton] at htwo
      omega
    · intro heq
      rw [heq, length_nil] at htwo
      omega

theorem Obtainable.encodes (h : Obtainable n) : ∃ ls, n.Encodes ls := by
  induction h with
  | made h => exact NameCall.exists_encodes h
  | @parent n p _ h ih =>
    obtain ⟨ls, hls, hwire, hlen⟩ := ih
    unfold RawName.parent at h
    split at h; · cases h
    next hroot =>
      cases ls with
      | nil =>
        refine absurd ?_ hroot
        rw [RawName.isRoot, hwire]
        exact Bool.or_true _
      | cons l ls =>
        obtain ⟨hl, hls⟩ := forall_mem_cons.mp hls
        cases h
        have hdrop : n.wire.drop (1 + (n.wire.headD 0).toNat) = Labels.encode ls := by
          rw [hwire, Labels.encode, headD_cons, hl.toNat_length, Nat.add_comm, drop_succ_cons, drop_left]
        refine ⟨ls, hls, hdrop, ?_⟩
        rw [length_drop]
        omega

/-- A name is read back from its text exactly if no byte of its labels is zero or an upper-case letter. -/
theorem string_roundTrip (h : Obtainable n) :
    (∃ m, parse n.string = .ok m ∧ m.equal n) ↔ ∀ l ∈ n.labels, ∀ b ∈ l, b ≠ 0 ∧ foldByte b = b := by
  obtain ⟨ls, hencodes⟩ := h.encodes
  rw [hencodes.labels_eq, parse_string hencodes]
  constructor
  · rintro ⟨m, hm, hequal⟩
    split at hm; · cases hm
    next hzero =>
      cases hm
      have hwire : Labels.encode (ls.map foldLabel) = n.wire := of_decide_eq_true hequal
      have hlower := Labels.encode_injective (isLabel_map_foldLabel hencodes.1) hencodes.1 (hwire.trans hencodes.2.1)
      intro l hl b hb
      refine ⟨?_, map_eq_self_iff.mp (map_eq_self_iff.mp hlower l hl) b hb⟩
      rintro rfl
      exact hzero (mem_flatten_of_mem hl hb)
  · intro hbytes
    have hzero : ¬0 ∈ ls.flatten := by
      intro hmem
      obtain ⟨l, hl, hb⟩ := mem_flatten.mp hmem
      exact (hbytes l hl 0 hb).1 rfl
    have hlower : ls.map foldLabel = ls := map_eq_self fun l hl => map_eq_self fun b hb => (hbytes l hl b hb).2
    rw [if_neg hzero, hlower, ← hencodes.2.1]
    exact ⟨n, rfl, decide_eq_true rfl⟩

theorem string_roundTrip_sample : Obtainable ⟨[3, 0x61, 0x2e, 0x20, 0]⟩ ∧
    ∃ m, parse (RawName.string ⟨[3, 0x61, 0x2e, 0x20, 0]⟩) = .ok m ∧ m.equal ⟨[3, 0x61, 0x2e, 0x20, 0]⟩ := by
  have hn : Obtainable ⟨[3, 0x61, 0x2e, 0x20, 0]⟩ := .made (c := .labels [[0x61, 0x2e, 0x20]]) rfl
  exact ⟨hn, (string_roundTrip hn).mpr (by decide +kernel)⟩

/-- The name of `\065.` is written as `A.`, which is another; a zero byte is written as `\000`, which is refused. -/
theorem string_not_roundTrip : (Obtainable ⟨[1, 0x41, 0]⟩ ∧ RawName.string ⟨[1, 0x41, 0]⟩ = [0x41, 0x2e] ∧
      parse [0x41, 0x2e] = .ok ⟨[1, 0x61, 0]⟩ ∧ RawName.equal ⟨[1, 0x61, 0]⟩ ⟨[1, 0x41, 0]⟩ = false) ∧
    Obtainable ⟨[1, 0, 0]⟩ ∧ RawName.string ⟨[1, 0, 0]⟩ = [0x5c, 0x30, 0x30, 0x30, 0x2e] ∧
      parse [0x5c, 0x30, 0x30, 0x30, 0x2e] = .error (invalidName "0x00 not allowed inside a label (RFC 1035 §3.1)") := by
  refine ⟨⟨.made (c := .text [0x5c, 0x30, 0x36, 0x35, 0x2e]) rfl, by decide, rfl, by decide⟩, ?_, by decide, rfl⟩
  exact .made (c := .labels [[0]]) rfl

end RoundTrip

end Acidns
