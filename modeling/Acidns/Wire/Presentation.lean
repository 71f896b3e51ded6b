import Acidns.Wire.Text

/-!
# Names built from text and from labels

`ParseName` and `NameFromLabels` of the `wire` package, with names in lower case as results. A text with a
decimal escape for an upper-case letter, which `Parse` accepts, stands for a `RawName` that is no `Name`;
what depends on it is left out of the model here.
-/

namespace Acidns

open List

variable {ls : List Bytes}

open Labels (IsLabel)

def Name.raw (n : Name) : RawName := ⟨n.wire⟩

/-- The name in presentation format. -/
def Name.text (n : Name) : Bytes := n.raw.string

/-- `ParseName` where its result is in lower case. -/
def parseName (s : Bytes) : Except WireError Name := do
  let n ← parse s
  if h : WellFormed n.wire then .ok ⟨n.wire, .inr h⟩ else .error ⟨.unmodelled, ""⟩

namespace Name

variable {n : Name}

section

variable (hn : n.isValid)

include hn

theorem encodes : n.raw.Encodes n.labels :=
  ⟨fun _ hl => (isNameLabel_of_mem_labels hl).1, wire_eq_encode hn, n.length_wire_le⟩

theorem text_eq : n.text = if n.labels = [] then [0x2e] else n.labels.flatMap RawName.escapeLabel := by
  have hencodes := encodes hn
  cases hls : n.labels with
  | nil =>
    rw [hls] at hencodes
    have hroot : n.raw = .root := congrArg RawName.mk hencodes.2.1
    rw [text, hroot]
    rfl
  | cons l ls =>
    rw [hls] at hencodes
    exact string_eq_of_cons hencodes

theorem getLast?_text : n.text.getLast? = some 0x2e := by
  rw [text_eq hn]
  split
  · rfl
  · next hls =>
    obtain ⟨ls, l, hlast⟩ : ∃ ls l, n.labels = ls ++ [l] := ⟨_, _, (dropLast_concat_getLast hls).symm⟩
    rw [hlast, flatMap_append, flatMap_singleton, RawName.escapeLabel, ← append_assoc, List.getLast?_concat]

theorem text_ne_nil : n.text ≠ [] := by
  intro hnil
  have hlast := getLast?_text hn
  rw [hnil] at hlast
  cases hlast

end

/-! ### The text determines the name -/

section Escape

open RawName (escapeByte escapeLabel)
open Numeral (isDigit)

variable {c d : UInt8} {l m s t : Bytes}

theorem escapeByte_cases (c : UInt8) : escapeByte c = [0x5c, c] ∧ isDigit c = false ∨
    (∃ d1 d2 d3, escapeByte c = [0x5c, d1, d2, d3] ∧ isDigit d1 = true ∧ decimalValue d1 d2 d3 = c.toNat) ∨
    escapeByte c = [c] ∧ c ≠ 0x2e ∧ c ≠ 0x5c := by
  unfold escapeByte
  split
  · next hspecial =>
    refine .inl ⟨rfl, ?_⟩
    rcases hspecial with rfl | rfl <;> decide
  next hspecial =>
    split
    · obtain ⟨d1, d2, d3, hescape, hdigit, -, -, hvalue⟩ := decimalEscape_spec c
      exact .inr (.inl ⟨d1, d2, d3, hescape, hdigit, hvalue⟩)
    · exact .inr (.inr ⟨rfl, not_or.mp hspecial⟩)

theorem escapeByte_append_inj (h : escapeByte c ++ s = escapeByte d ++ t) : c = d ∧ s = t := by
  rcases escapeByte_cases c with ⟨hc, hcdigit⟩ | ⟨c1, c2, c3, hc, hcdigit, hcvalue⟩ | ⟨hc, -, hcslash⟩ <;>
    rcases escapeByte_cases d with ⟨hd, hddigit⟩ | ⟨d1, d2, d3, hd, hddigit, hdvalue⟩ | ⟨hd, -, hdslash⟩ <;>
    rw [hc, hd] at h <;> simp only [cons_append, nil_append, List.cons.injEq] at h
  · exact h.2
  · rw [h.2.1, hddigit] at hcdigit
    cases hcdigit
  · exact absurd h.1.symm hdslash
  · rw [h.2.1, hddigit] at hcdigit
    cases hcdigit
  · obtain ⟨-, rfl, rfl, rfl, rfl⟩ := h
    exact ⟨UInt8.toNat_inj.mp (hcvalue.symm.trans hdvalue), rfl⟩
  · exact absurd h.1.symm hdslash
  · exact absurd h.1 hcslash
  · exact absurd h.1 hcslash
  · exact h

theorem escapeByte_append_ne (c : UInt8) (s t : Bytes) : escapeByte c ++ s ≠ 0x2e :: t := by
  grind [escapeByte_cases]

theorem escapeLabel_append_inj (h : escapeLabel l ++ s = escapeLabel m ++ t) : l = m ∧ s = t := by
  simp only [escapeLabel, append_assoc, singleton_append] at h
  induction l generalizing m with
  | nil =>
    cases m with
    | nil => exact ⟨rfl, tail_eq_of_cons_eq h⟩
    | cons d m =>
      rw [flatMap_nil, nil_append, flatMap_cons, append_assoc] at h
      exact absurd h.symm (escapeByte_append_ne d _ _)
  | cons c l ih =>
    rw [flatMap_cons, append_assoc] at h
    cases m with
    | nil => exact absurd h (escapeByte_append_ne c _ _)
    | cons d m => grind [escapeByte_append_inj]

theorem escapeLabel_ne_nil (l : Bytes) : escapeLabel l ≠ [] :=
  append_ne_nil_of_right_ne_nil _ (cons_ne_nil _ _)

theorem escapeLabels_inj {ms : List Bytes} (h : ls.flatMap escapeLabel = ms.flatMap escapeLabel) : ls = ms := by
  induction ls generalizing ms with
  | nil =>
    cases ms with
    | nil => rfl
    | cons m ms => exact absurd (append_eq_nil_iff.mp h.symm).1 (escapeLabel_ne_nil m)
  | cons l ls ih =>
    cases ms with
    | nil => exact absurd (append_eq_nil_iff.mp h).1 (escapeLabel_ne_nil l)
    | cons m ms =>
      obtain ⟨rfl, hrest⟩ := escapeLabel_append_inj h
      rw [ih hrest]

end Escape

theorem flatMap_escapeLabel_ne {m : Name} (h : m.labels ≠ []) : m.labels.flatMap RawName.escapeLabel ≠ [0x2e] := by
  obtain ⟨l, ls, hls⟩ := exists_cons_of_ne_nil h
  have hlabel := (isNameLabel_of_mem_labels (hls ▸ (.head _) : l ∈ m.labels)).1
  obtain ⟨c, l, rfl⟩ := exists_cons_of_length_pos hlabel.1
  rw [hls, flatMap_cons, RawName.escapeLabel, flatMap_cons, append_assoc, append_assoc]
  exact escapeByte_append_ne c _ _

theorem text_eq_nil (hn : ¬n.isValid) : n.text = [] := by
  rw [text, RawName.string, show n.raw.isValid = false from Bool.eq_false_iff.mpr hn]
  rfl

theorem eq_of_text_eq {m : Name} (hn : n.isValid) (hm : m.isValid) (h : n.text = m.text) : n = m := by
  apply ext_of_labels hn hm
  rw [text_eq hn, text_eq hm] at h
  split at h
  · grind [flatMap_escapeLabel_ne]
  · next hcons =>
    split at h
    · exact absurd h (flatMap_escapeLabel_ne hcons)
    · exact escapeLabels_inj h

theorem text_injective : Function.Injective text := by
  intro n m h
  by_cases hn : n.isValid <;> by_cases hm : m.isValid
  · exact eq_of_text_eq hn hm h
  · exact absurd (h.trans (text_eq_nil hm)) (text_ne_nil hn)
  · exact absurd (h.symm.trans (text_eq_nil hn)) (text_ne_nil hm)
  · have hzero : ∀ n : Name, ¬n.isValid → n = zero := by
      intro n hn
      obtain ⟨wire, inv⟩ := n
      cases wire with
      | nil => rfl
      | cons b wire => exact absurd rfl hn
    rw [hzero n hn, hzero m hm]

end Name

/-! ### Labels -/

theorem wellFormed_of_fromLabels {n : RawName} (h : fromLabels ls = .ok n) : WellFormed n.wire :=
  (@NameCall.wellFormed_iff (.labels ls) n h).mpr id

/-- `fromLabels` over the names that are in lower case. -/
def nameFromLabels (ls : List Bytes) : Except WireError Name :=
  match h : fromLabels ls with
  | .ok n => .ok ⟨n.wire, .inr (wellFormed_of_fromLabels h)⟩
  | .error e => .error e

theorem nameFromLabels_of_ok {n : RawName} {m : Name} (h : fromLabels ls = .ok n) (hwire : m.wire = n.wire) :
    nameFromLabels ls = .ok m := by
  unfold nameFromLabels
  split
  · next n' h' =>
    cases h.symm.trans h'
    obtain ⟨wire, inv⟩ := m
    obtain rfl : wire = n.wire := hwire
    rfl
  · next e h' => cases h.symm.trans h'

theorem labels_of_nameFromLabels {m : Name} (h : nameFromLabels ls = .ok m) :
    m.isValid = true ∧ m.labels = ls.map foldLabel := by
  unfold nameFromLabels at h
  split at h
  · next n hn =>
    cases h
    have hencodes := fromLabels_ok hn
    have hlabels := hencodes.labels_eq
    have hvalid : n.isValid = true := by
      rw [RawName.isValid, hencodes.2.1]
      exact decide_eq_true (length_pos_iff.mpr (Labels.encode_ne_nil _))
    exact ⟨hvalid, hlabels⟩
  · cases h

theorem fromLabelsLoop_of_isLabel (hls : ∀ l ∈ ls, IsLabel l) (wire : Bytes) :
    fromLabelsLoop ls wire = .ok (wire ++ Labels.body (ls.map foldLabel)) := by
  induction ls generalizing wire with
  | nil => exact congrArg Except.ok (append_nil wire).symm
  | cons l ls ih =>
    obtain ⟨hl, hls⟩ := forall_mem_cons.mp hls
    have hle : ¬l.length > maxLabelLen := Nat.not_lt.mpr (Nat.le_of_lt_succ hl.2)
    rw [fromLabelsLoop, if_neg (Nat.ne_of_gt hl.1), if_neg hle, ih hls, map_cons, Labels.body_cons,
      length_foldLabel, append_assoc]

theorem nameFromLabels_labels {n : Name} (hn : n.isValid) : nameFromLabels n.labels = .ok n := by
  have hlabels := n.isNameLabel_labels
  have hwire := Name.wire_eq_encode hn
  refine nameFromLabels_of_ok (n := ⟨n.wire⟩) ?_ rfl
  unfold fromLabels
  split
  · next hnil =>
    rw [hwire, hnil]
    rfl
  · have hbody : Labels.body n.labels ++ [0] = n.wire := by rw [hwire, Labels.encode_eq_body]
    rw [fromLabelsLoop_of_isLabel fun l hl => (hlabels l hl).1, nil_append, map_foldLabel_eq hlabels]
    show closeName (Labels.body n.labels) = .ok ⟨n.wire⟩
    rw [closeName, hbody, if_neg (Nat.not_lt.mpr n.length_wire_le)]

/-! ### Wildcards in text -/

/-- What the loop of `Parse` makes of the text of a name behind a first label, if it gets through. -/
theorem parseLoop_escapeLabels_ok {wire label' wire' : Bytes} (hls : ∀ l ∈ ls, IsLabel l)
    (h : parseLoop (ls.flatMap RawName.escapeLabel) [] wire = .ok (label', wire')) :
    label' = [] ∧ wire' = wire ++ Labels.body (ls.map foldLabel) := by
  induction ls generalizing wire with
  | nil =>
    obtain ⟨rfl, rfl⟩ := Prod.mk.inj (Except.ok.inj h)
    exact ⟨rfl, (append_nil wire).symm⟩
  | cons l ls ih =>
    obtain ⟨hl, hls⟩ := forall_mem_cons.mp hls
    have hle : l.length ≤ maxLabelLen := Nat.le_of_lt_succ hl.2
    rw [flatMap_cons, RawName.escapeLabel, append_assoc,
      parseLoop_escapeBytes (by rw [length_nil]; omega)] at h
    split at h
    · cases h
    · rw [nil_append, singleton_append, parseLoop.eq_def] at h
      obtain ⟨wire₁, hflush, hrest⟩ := bind_ok h
      obtain ⟨-, rfl⟩ := flushLabel_ok hflush
      obtain ⟨hlabel, hwire⟩ := ih hls hrest
      refine ⟨hlabel, ?_⟩
      rw [hwire, map_cons, Labels.body_cons, append_assoc]

theorem labels_of_parseName_star {n m : Name} (hn : n.isValid) (h : parseName (0x2a :: 0x2e :: n.text) = .ok m) :
    m.isValid = true ∧ m.labels = [0x2a] :: n.labels := by
  obtain ⟨r, hparse, hr⟩ := bind_ok h
  split at hr
  case isFalse => cases hr
  cases hr
  have hstart : parse (0x2a :: 0x2e :: n.text) =
      parseLoop n.text [] [1, 0x2a] >>= fun p => closeLabel p.1 p.2 >>= closeName := by
    rw [parse, if_neg (cons_ne_nil _ _), if_neg fun heq => absurd (List.cons.inj heq).1 (by decide)]
    have hloop : parseLoop (0x2a :: 0x2e :: n.text) [] [] = parseLoop n.text [] [1, 0x2a] :=
      @parseLoop_escapeLabel [0x2a] [] n.text (by decide) (by decide)
    rw [hloop]
  rw [hstart] at hparse
  obtain ⟨⟨label, wire⟩, hloop, hclose⟩ := bind_ok hparse
  have hls : ∀ l ∈ n.labels, IsLabel l := fun l hl => (Name.isNameLabel_of_mem_labels hl).1
  rw [Name.text_eq hn] at hloop
  split at hloop
  · rw [parseLoop.eq_def] at hloop
    cases hloop
  · obtain ⟨rfl, rfl⟩ := parseLoop_escapeLabels_ok hls hloop
    obtain ⟨hwire, -⟩ := closeName_ok hclose
    have hstar : ∀ l ∈ [0x2a] :: n.labels, IsNameLabel l :=
      forall_mem_cons.mpr ⟨by decide, n.isNameLabel_labels⟩
    refine Name.labels_of_wire hstar ?_
    show r.wire = Labels.encode ([0x2a] :: n.labels)
    rw [hwire, map_foldLabel_eq n.isNameLabel_labels, append_assoc, ← Labels.encode_eq_body]
    rfl

end Acidns
