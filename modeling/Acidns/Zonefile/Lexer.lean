import Acidns.Wire.Text

/-!
# The lexer of master files

`zonefile/lexer.go`: a master file as a stream of words and quoted strings, cut into logical lines.
Comments are dropped, and a parenthesised region belongs to one line.
-/

namespace Acidns.Zonefile

open List

open Numeral (isDigit)

inductive TokenKind where
  | word
  | quoted
  | eol
  | eof
  deriving DecidableEq

structure LexToken where
  kind : TokenKind
  text : Bytes
  line : Nat
  deriving DecidableEq

structure LineError where
  line : Nat
  text : String
  deriving DecidableEq

/-- The lexer between two tokens. -/
structure Lexer where
  line : Nat
  parenDepth : Nat
  inLine : Bool
  sawLeadingWS : Bool
  deriving DecidableEq

def newLexer : Lexer := ⟨1, 0, false, false⟩

/-- What one call of `next` gives: a token, the flag for leading blanks, and the state it leaves. -/
structure Lexed where
  token : LexToken
  leading : Bool
  lexer : Lexer
  rest : Bytes
  deriving DecidableEq

def maxLexerTokenSize : Nat := 64 * 1024

def isDelimiter (b : UInt8) : Bool :=
  b = 0x20 ∨ b = 0x09 ∨ b = 0x0a ∨ b = 0x0d ∨ b = 0x3b ∨ b = 0x28 ∨ b = 0x29 ∨ b = 0x22

/-- The loop of `readWord`: escapes are kept as they are written. -/
def readWordLoop (line : Nat) : (rest sb : Bytes) → Except LineError (Bytes × Bytes)
  | [], sb => .ok (sb, [])
  | b :: rest, sb =>
    if isDelimiter b then .ok (sb, b :: rest)
    else if b = 0x5c then
      match rest with
      | [] => .error ⟨line, "dangling backslash"⟩
      | c :: rest =>
        if (sb ++ [0x5c, c]).length > maxLexerTokenSize then .error ⟨line, "token exceeds 65536 bytes"⟩
        else readWordLoop line rest (sb ++ [0x5c, c])
    else if (sb ++ [b]).length > maxLexerTokenSize then .error ⟨line, "token exceeds 65536 bytes"⟩
    else readWordLoop line rest (sb ++ [b])

def readWord (line : Nat) (rest : Bytes) : Except LineError (Bytes × Bytes) := readWordLoop line rest []

def readDecimalEscape (line : Nat) (d1 d2 d3 : UInt8) (place : String) : Except LineError UInt8 :=
  if !isDigit d2 || !isDigit d3 then .error ⟨line, s!"bad decimal escape in {place}"⟩
  else if decimalValue d1 d2 d3 > 255 then .error ⟨line, s!"decimal escape > 255 in {place}"⟩
  else .ok (UInt8.ofNat (decimalValue d1 d2 d3))

/-- The loop of `readQuoted`: escapes are replaced by what they stand for. -/
def readQuotedLoop : (line : Nat) → (rest sb : Bytes) → Except LineError (Bytes × Nat × Bytes)
  | line, [], _ => .error ⟨line, "unterminated quoted string"⟩
  | line, b :: rest, sb =>
    if b = 0x22 then .ok (sb, line, rest)
    else if b = 0x5c then
      match rest with
      | [] => .error ⟨line, "dangling backslash in quoted string"⟩
      | c :: rest =>
        if isDigit c then
          match rest with
          | d2 :: d3 :: rest => do
            let v ← readDecimalEscape line c d2 d3 "quoted string"
            if (sb ++ [v]).length > maxLexerTokenSize then .error ⟨line, "quoted string exceeds 65536 bytes"⟩
            else readQuotedLoop line rest (sb ++ [v])
          | _ => .error ⟨line, "bad decimal escape in quoted string"⟩
        else if (sb ++ [c]).length > maxLexerTokenSize then .error ⟨line, "quoted string exceeds 65536 bytes"⟩
        else readQuotedLoop line rest (sb ++ [c])
    else
      let line := if b = 0x0a then line + 1 else line
      if (sb ++ [b]).length > maxLexerTokenSize then .error ⟨line, "quoted string exceeds 65536 bytes"⟩
      else readQuotedLoop line rest (sb ++ [b])

def readQuoted (line : Nat) (rest : Bytes) : Except LineError (Bytes × Nat × Bytes) := readQuotedLoop line rest []

namespace Lexer

def closeLine (l : Lexer) : Lexer := { l with inLine := false, sawLeadingWS := false }

def flushOnEOF (l : Lexer) : Lexed :=
  if l.inLine then ⟨⟨.eol, [], l.line⟩, false, l.closeLine, []⟩ else ⟨⟨.eof, [], l.line⟩, false, l, []⟩

def emit (l : Lexer) (kind : TokenKind) (text : Bytes) (line : Nat) (rest : Bytes) : Lexed :=
  ⟨⟨kind, text, line⟩, l.sawLeadingWS && !l.inLine, { l with inLine := true, line := line }, rest⟩

end Lexer

/-- The loop of `next`, inside a comment or not. -/
def nextLoop : (comment : Bool) → Lexer → Bytes → Except LineError Lexed
  | comment, l, [] =>
    -- the end of the file inside a comment is not checked for open parentheses
    if !comment ∧ l.parenDepth ≠ 0 then .error ⟨l.line, "unbalanced parentheses at EOF"⟩ else .ok l.flushOnEOF
  | comment, l, b :: rest =>
    if b = 0x0a then
      if l.parenDepth = 0 ∧ l.inLine then
        .ok ⟨⟨.eol, [], l.line⟩, false, { l.closeLine with line := l.line + 1 }, rest⟩
      else nextLoop false { l with line := l.line + 1 } rest
    else if comment then nextLoop true l rest
    else if b = 0x0d then nextLoop false l rest
    else if b = 0x20 ∨ b = 0x09 then
      nextLoop false (if l.inLine then l else { l with sawLeadingWS := true }) rest
    else if b = 0x3b then nextLoop true l rest
    else if b = 0x28 then nextLoop false { l with parenDepth := l.parenDepth + 1 } rest
    else if b = 0x29 then
      if l.parenDepth = 0 then .error ⟨l.line, "unexpected ')'"⟩
      else nextLoop false { l with parenDepth := l.parenDepth - 1 } rest
    else if b = 0x22 then do
      let (text, line, rest) ← readQuoted l.line rest
      .ok (l.emit .quoted text line rest)
    else do
      let (text, rest) ← readWord l.line (b :: rest)
      .ok (l.emit .word text l.line rest)

/-- One token; line ends within parentheses are skipped. -/
def Lexer.next (l : Lexer) (rest : Bytes) : Except LineError Lexed := nextLoop false l rest

/-! ### Words -/

def isWord : Bytes → Bool
  | [] => true
  | b :: rest =>
    if isDelimiter b then false
    else if b = 0x5c then
      match rest with
      | [] => false
      | _ :: rest => isWord rest
    else isWord rest

theorem isWord_of_plain {w : Bytes} (hw : ∀ b ∈ w, ¬isDelimiter b ∧ b ≠ 0x5c) : isWord w := by
  induction w with
  | nil => rfl
  | cons b w ih =>
    obtain ⟨⟨hdelimiter, hslash⟩, hw⟩ := forall_mem_cons.mp hw
    rw [isWord.eq_def]
    simp only [hdelimiter, hslash, if_false]
    exact ih hw

theorem isWord_append {w w' : Bytes} (hw : isWord w) (hw' : isWord w') : isWord (w ++ w') := by
  fun_induction isWord w with
  | case1 => exact hw'
  | case2 => cases hw
  | case3 => cases hw
  | case4 c w hdelimiter ih =>
    rw [cons_append, cons_append, isWord.eq_def]
    exact ih hw
  | case5 b w hdelimiter hslash ih =>
    rw [cons_append, isWord.eq_def]
    simp only [hdelimiter, hslash, if_false]
    exact ih hw

theorem readWordLoop_word {line : Nat} {w sb t : Bytes} {d : UInt8} (hw : isWord w) (hd : isDelimiter d)
    (hlen : (sb ++ w).length ≤ maxLexerTokenSize) : readWordLoop line (w ++ d :: t) sb = .ok (sb ++ w, d :: t) := by
  fun_induction isWord w generalizing sb with
  | case1 =>
    rw [nil_append, readWordLoop.eq_def, append_nil]
    simp only [hd, if_true]
  | case2 => cases hw
  | case3 => cases hw
  | case4 c w hdelimiter ih => grind [readWordLoop.eq_def]
  | case5 b w hdelimiter hslash ih => grind [readWordLoop.eq_def]

end Acidns.Zonefile
