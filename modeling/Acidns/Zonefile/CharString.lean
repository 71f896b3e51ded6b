import Acidns.Wire.Window
import Acidns.Zonefile.Parser

/-!
# Character strings

A character string of a zone file may be written in many ways: in quotes or as a word, with a byte as it is, behind a
backslash or in decimal. The lexer undoes the escapes in quotes only, and the parser does not know of those in words.
-/

namespace Acidns.Zonefile

open List

open Numeral (isDigit)

/-! ### In quotes -/

/-- The ways to write a string: bytes of a kind as they are, the others behind a backslash or in decimal. -/
inductive Written (plain : UInt8 → Prop) : (s w : Bytes) → Prop
  | nil : Written plain [] []
  | plain {c : UInt8} {s w : Bytes} (hc : plain c) (h : Written plain s w) : Written plain (c :: s) (c :: w)
  | escaped {c : UInt8} {s w : Bytes} (hc : ¬plain c) (h : Written plain s w) :
      Written plain (c :: s) (0x5c :: c :: w)
  | decimal {c : UInt8} {s w : Bytes} (hc : ¬plain c) (h : Written plain s w) :
      Written plain (c :: s) (RawName.decimalEscape c ++ w)

def quotePlain (c : UInt8) : Prop := ¬(c = 0x22 ∨ c = 0x5c) ∧ ¬(c < 0x20 ∨ c > 0x7e)

instance : DecidablePred quotePlain := fun _ => inferInstanceAs (Decidable (_ ∧ _))

variable {plain : UInt8 → Prop} {s w rest : Bytes} {l : Lexer} {c : UInt8}

theorem readQuotedLoop_written {line : Nat} {sb t : Bytes}
    (hplain : ∀ c, plain c → quotePlain c) (hdigit : ∀ c, isDigit c → plain c) (h : Written plain s w)
    (hlen : (sb ++ s).length ≤ maxLexerTokenSize) :
    readQuotedLoop line (w ++ 0x22 :: t) sb = .ok (sb ++ s, line, t) := by
  induction h generalizing sb with
  | nil =>
    rw [append_nil, nil_append, readQuotedLoop.eq_def]
    rfl
  | @plain c s w hc h ih =>
    rw [append_cons sb c s] at hlen ⊢
    have hshort : ¬(sb ++ [c]).length > maxLexerTokenSize := by grind
    obtain ⟨hspecial, hprintable⟩ := hplain c hc
    obtain ⟨hquote, hslash⟩ := not_or.mp hspecial
    have hnewline : c ≠ 0x0a := by
      rintro rfl
      exact hprintable (.inl (by decide))
    rw [cons_append, readQuotedLoop.eq_def]
    simp only [hquote, hslash, hnewline, hshort, if_false]
    exact ih hlen
  | @escaped c s w hc h ih =>
    rw [append_cons sb c s] at hlen ⊢
    have hshort : ¬(sb ++ [c]).length > maxLexerTokenSize := by grind
    have hletter : ¬isDigit c = true := fun hd => hc (hdigit c hd)
    rw [cons_append, cons_append, readQuotedLoop.eq_def]
    simp only [hletter, hshort, if_false, if_true, Bool.false_eq_true]
    rw [if_neg (by decide)]
    exact ih hlen
  | @decimal c s w hc h ih =>
    rw [append_cons sb c s] at hlen ⊢
    have hshort : ¬(sb ++ [c]).length > maxLexerTokenSize := by grind
    obtain ⟨d1, d2, d3, hescape, hd1, hd2, hd3, hvalue⟩ := decimalEscape_spec c
    have hle : ¬c.toNat > 255 := Nat.not_lt.mpr (Nat.le_of_lt_succ c.toNat_lt)
    have hread : readDecimalEscape line d1 d2 d3 "quoted string" = .ok c := by simp [readDecimalEscape, *]
    rw [hescape, cons_append, cons_append, readQuotedLoop.eq_def]
    simp only [cons_append, nil_append, hd1, if_true, hread]
    exact (if_neg hshort).trans (ih hlen)

theorem nextLoop_word {d : UInt8} (hw : isWord w) (hne : w ≠ []) (hd : isDelimiter d)
    (hlen : w.length ≤ maxLexerTokenSize) : nextLoop false l (w ++ d :: rest) = .ok (l.emit .word w l.line (d :: rest)) := by
  have hread := @readWordLoop_word l.line w [] rest d hw hd hlen
  obtain ⟨b, w, rfl⟩ := exists_cons_of_ne_nil hne
  have hb : ¬isDelimiter b := by
    rw [isWord.eq_def] at hw
    intro hdelimiter
    simp only [hdelimiter, if_true, Bool.false_eq_true] at hw
  have hne' : ∀ c, isDelimiter c → b ≠ c := by
    rintro c hc rfl
    exact hb hc
  have hblank : ¬(b = 0x20 ∨ b = 0x09) := not_or.mpr ⟨hne' 0x20 rfl, hne' 0x09 rfl⟩
  rw [cons_append, nextLoop.eq_def]
  simp only [hne' 0x0a rfl, hne' 0x0d rfl, hblank, hne' 0x3b rfl, hne' 0x28 rfl, hne' 0x29 rfl, hne' 0x22 rfl, if_false,
    Bool.false_eq_true]
  rw [readWord, ← cons_append, hread]
  rfl

theorem nextLoop_written (hplain : ∀ c, plain c → quotePlain c)
    (hdigit : ∀ c, isDigit c → plain c) (h : Written plain s w) (hlen : s.length ≤ maxLexerTokenSize) :
    nextLoop false l (0x22 :: (w ++ 0x22 :: rest)) = .ok (l.emit .quoted s l.line rest) := by
  have hread : readQuoted l.line (w ++ 0x22 :: rest) = .ok (s, l.line, rest) :=
    readQuotedLoop_written hplain hdigit h hlen
  rw [nextLoop.eq_def]
  simp only [hread]
  rfl

theorem quotePlain_of_isDigit (hc : isDigit c) : quotePlain c := by
  simp only [isDigit, decide_eq_true_eq] at hc
  grind [quotePlain]

/-! ### As a word -/

theorem plain_of_isDigit : isDigit c → ¬isDelimiter c ∧ c ≠ 0x5c :=
  forall_byte (P := fun c => isDigit c → ¬isDelimiter c ∧ c ≠ 0x5c) (by decide +kernel) c

def wordPlain (c : UInt8) : Prop := quotePlain c ∧ ¬isDelimiter c

instance : DecidablePred wordPlain := fun _ => inferInstanceAs (Decidable (_ ∧ _))

theorem wordPlain_of_isDigit (hc : isDigit c) : wordPlain c :=
  ⟨quotePlain_of_isDigit hc, (plain_of_isDigit hc).1⟩

namespace Written

theorem isWord (h : Written wordPlain s w) : isWord w := by
  induction h with
  | nil => rfl
  | @plain c _ _ hc _ ih =>
    have hfirst : Zonefile.isWord [c] := isWord_of_plain (forall_mem_singleton.mpr ⟨hc.2, fun h => hc.1.1 (.inr h)⟩)
    exact isWord_append hfirst ih
  | escaped _ _ ih => exact ih
  | @decimal c _ _ _ _ ih =>
    obtain ⟨d1, d2, d3, hescape, -, hd2, hd3, -⟩ := decimalEscape_spec c
    have htail : Zonefile.isWord [d2, d3] := isWord_of_plain (forall_mem_cons.mpr
      ⟨plain_of_isDigit hd2, forall_mem_singleton.mpr (plain_of_isDigit hd3)⟩)
    rw [hescape]
    exact isWord_append htail ih

theorem length_bounds {plain : UInt8 → Prop} (h : Written plain s w) : s.length ≤ w.length ∧ w.length ≤ 4 * s.length := by
  induction h with
  | nil => simp
  | plain | escaped | decimal => grind [RawName.decimalEscape]

theorem eq_iff {plain : UInt8 → Prop} (h : Written plain s w) : w = s ↔ ∀ c ∈ s, plain c := by
  induction h with
  | nil => simp
  | plain hc _ ih => simp [ih, hc]
  | escaped hc h | decimal hc h =>
    have hlonger := h.length_bounds.1
    refine ⟨fun heq => ?_, fun hall => absurd (hall _ (.head _)) hc⟩
    have hlength := congrArg length heq
    simp [RawName.decimalEscape] at hlength
    omega

end Written

/-! ### The data of a TXT record -/

variable {texts : Texts} {p : Parser} {t : RRType} {f : FieldTok} {fs : List FieldTok}

theorem parseRData_presentation (hf : f.text ≠ ascii "\\#") :
    parseRData texts p t (f :: fs) = parsePresentation texts p t (f :: fs) :=
  if_neg hf

theorem newTXTFrom_ok (strs : List Decoder.CharString) (i : Nat) : newTXTFrom i (strs.map Subtype.val) = .ok strs := by
  induction strs generalizing i with
  | nil => rfl
  | cons s strs ih =>
    rw [map_cons, newTXTFrom, dif_pos s.property, ih]
    rfl

theorem newTXT_ok (strs : List Decoder.CharString) : newTXT (strs.map Subtype.val) = .ok (.txt strs) := by
  rw [newTXT, newTXTFrom_ok]
  rfl

/-- The data of a TXT record with the one field that the lexer reads next. -/
def parseTXTField (texts : Texts) (p : Parser) (l : Lexer) (text : Bytes) : Except ParseError RData := do
  let t ← (l.next text).mapError .lexer
  fieldErr t.token.line (parseRData texts p .txt [⟨t.token.text, t.token.kind = .quoted, t.token.line⟩])

theorem parseTXTField_iff {l : Lexer} {text rest t : Bytes} {kind : TokenKind} {s : Decoder.CharString}
    (h : nextLoop false l text = .ok (l.emit kind t l.line rest)) :
    parseTXTField texts p l text = .ok (.txt [s]) ↔ t = s.val ∧ t ≠ ascii "\\#" := by
  rw [parseTXTField, Lexer.next, h]
  show fieldErr l.line (parseRData texts p .txt [⟨t, decide (kind = .quoted), l.line⟩]) = _ ↔ _
  by_cases hmarker : t = ascii "\\#"
  · rw [parseRData, if_pos hmarker]
    simp [hmarker, parseGenericRData, fieldErr, Except.mapError]
  · rw [parseRData_presentation hmarker]
    show fieldErr l.line (wireErr "" (newTXT [t])) = _ ↔ _
    by_cases hfit : t.length ≤ 255
    · rw [show [t] = [(⟨t, hfit⟩ : Decoder.CharString)].map Subtype.val from rfl, newTXT_ok]
      simp [fieldErr, wireErr, Except.mapError, hmarker, Subtype.ext_iff]
    · have hne : t ≠ s.val := fun heq => hfit (heq ▸ s.property)
      simp [newTXT, newTXTFrom, hfit, hne, bind, Except.bind, fieldErr, wireErr, Except.mapError]

/-- **Escapes in character strings.** In quotes an escape stands for its byte; outside it is left in the string. So a
string is read alike in both forms exactly if it has no byte that must be escaped. -/
theorem parseTXTField_written_iff {l : Lexer} {s w rest : Bytes} {d : UInt8} (hne : s ≠ []) (hlen : s.length ≤ 255)
    (hw : Written wordPlain s w) (hd : isDelimiter d) :
    (parseTXTField texts p l (w ++ d :: rest) = .ok (.txt [⟨s, hlen⟩]) ∧
      parseTXTField texts p l (0x22 :: (w ++ 0x22 :: d :: rest)) = .ok (.txt [⟨s, hlen⟩])) ↔ ∀ c ∈ s, wordPlain c := by
  obtain ⟨hshort, hlong⟩ := hw.length_bounds
  have hwne : w ≠ [] := ne_nil_of_length_pos (Nat.lt_of_lt_of_le (length_pos_iff.mpr hne) hshort)
  have hmax : w.length ≤ maxLexerTokenSize := by
    unfold maxLexerTokenSize
    omega
  rw [parseTXTField_iff (nextLoop_word hw.isWord hwne hd hmax), parseTXTField_iff (nextLoop_written (fun _ h => h.1)
    (fun _ => wordPlain_of_isDigit) hw (Nat.le_trans hlen (by decide))), ← hw.eq_iff]
  refine ⟨fun h => h.1.1, fun heq => ?_⟩
  have hmarker : s ≠ ascii "\\#" := by
    rintro rfl
    exact absurd (hw.eq_iff.mp heq 0x5c (.head _)) (by decide)
  exact ⟨⟨heq, heq ▸ hmarker⟩, rfl, hmarker⟩

theorem parseTXTField_written_ab :
    let texts : Texts := ⟨some, some⟩
    let p : Parser := ⟨.zero, 0, .zero, []⟩
    parseTXTField texts p newLexer (ascii "ab\n") = .ok (.txt [⟨ascii "ab", by decide⟩]) ∧
      parseTXTField texts p newLexer (ascii "\"ab\"\n") = .ok (.txt [⟨ascii "ab", by decide⟩]) :=
  (parseTXTField_written_iff (s := ascii "ab") (by decide) (by decide)
    (.plain (by decide) (.plain (by decide) .nil)) (d := 0x0a) rfl).mpr (by decide)

theorem written_blank : Written wordPlain (ascii "a b") (ascii "a\\ b") :=
  .plain (by decide) (.escaped (by decide) (.plain (by decide) .nil))

/-- A blank behind a backslash: outside quotes the backslash becomes part of the string. -/
theorem parseTXTField_escaped :
    let texts : Texts := ⟨some, some⟩
    let p : Parser := ⟨.zero, 0, .zero, []⟩
    Written wordPlain (ascii "a b") (ascii "a\\ b") ∧
      parseTXTField texts p newLexer (ascii "a\\ b" ++ [0x0a]) = .ok (.txt [⟨ascii "a\\ b", by decide⟩]) ∧
      parseTXTField texts p newLexer (0x22 :: (ascii "a\\ b" ++ [0x22, 0x0a])) = .ok (.txt [⟨ascii "a b", by decide⟩]) :=
  ⟨written_blank, (parseTXTField_iff (nextLoop_word written_blank.isWord (by decide) rfl (by decide))).mpr ⟨rfl, by decide⟩,
    (parseTXTField_iff (nextLoop_written (fun _ h => h.1) (fun _ => wordPlain_of_isDigit) written_blank (by decide))).mpr
      ⟨rfl, by decide⟩⟩

end Acidns.Zonefile
