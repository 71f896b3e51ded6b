import Acidns.Dnssec.Canonical

/-!
# Names in order and below one another

`validatorbb/name.go`, for names as the constructors make them, with upper-case letters that `Parse` has taken from
decimal escapes. The order compares labels from the root and closes the names of a zone to a circle that covers every
other name once. The test for a subdomain compares texts, in which a dot of a label ends in the same byte as a label.
-/

namespace Acidns

open List
open RawName (escapeByte escapeLabel)

namespace RawName

variable {a b c n : RawName}

def collectLabels (n : RawName) : List Bytes := n.labels.reverse

def canonicalNameCmp (a b : RawName) : Ordering := List.compareLex compareBytes a.collectLabels b.collectLabels

def nameCoveredBy (qname owner next : RawName) : Bool :=
  if canonicalNameCmp owner next = .lt then canonicalNameCmp owner qname = .lt && canonicalNameCmp qname next = .lt
  else canonicalNameCmp owner qname = .lt || canonicalNameCmp qname next = .lt

/-! ### The order -/

theorem compares_canonicalNameCmp (a b : RawName) : (canonicalNameCmp a b).Compares a.collectLabels b.collectLabels :=
  Chain.compares_compareLex compares_compareBytes _ _

theorem canonicalNameCmp_eq_lt : canonicalNameCmp a b = .lt ↔ a.collectLabels < b.collectLabels :=
  (compares_canonicalNameCmp a b).eq_lt

theorem encodes_labels (h : Obtainable n) : n.Encodes n.labels := by
  obtain ⟨ls, hls⟩ := h.encodes
  rwa [hls.labels_eq]

theorem eq_of_labels (ha : Obtainable a) (hb : Obtainable b) (h : a.labels = b.labels) : a = b := by
  obtain ⟨wire⟩ := a
  obtain ⟨wire'⟩ := b
  rw [mk.injEq, show wire = _ from (encodes_labels ha).2.1, show wire' = _ from (encodes_labels hb).2.1, h]

theorem collectLabels_inj (ha : Obtainable a) (hb : Obtainable b) :
    a.collectLabels = b.collectLabels ↔ a = b :=
  ⟨fun h => eq_of_labels ha hb (reverse_injective h), fun h => h ▸ rfl⟩

theorem nameCoveredBy_iff : nameCoveredBy a b c = true ↔
    Chain.Covers b.collectLabels c.collectLabels a.collectLabels := by
  unfold nameCoveredBy Chain.Covers
  simp only [canonicalNameCmp_eq_lt]
  split <;> simp

theorem countP_nameCoveredBy {names : List RawName} {q : RawName} (hne : names ≠ [])
    (hnames : ∀ n ∈ names, Obtainable n) (hq : Obtainable q)
    (hsorted : names.Pairwise fun a b => canonicalNameCmp a b = .lt) :
    (names.zip (names.rotate 1)).countP (fun link => nameCoveredBy q link.1 link.2) = if q ∈ names then 0 else 1 := by
  have hcount := @Chain.countP_covers _ _ q.collectLabels (names.map collectLabels) (by simpa using hne)
    (pairwise_map.mpr (hsorted.imp canonicalNameCmp_eq_lt.mp))
  have hmem : q.collectLabels ∈ names.map collectLabels ↔ q ∈ names := by grind [collectLabels_inj]
  rw [← map_rotate, zip_map, countP_map] at hcount
  simp only [hmem] at hcount
  rw [← hcount]
  refine countP_congr fun link _ => ?_
  rw [nameCoveredBy_iff, Function.comp_apply, decide_eq_true_eq]
  rfl

/-- **The chain of names.** The comparison is a total order on names. The names of a set, closed to a circle in this
order, cover every other name exactly once and none of themselves. -/
theorem canonicalNameCmp_chain :
    (∀ a b, Obtainable a → Obtainable b → (canonicalNameCmp a b = .eq ↔ a.equal b = true)) ∧
    (∀ a b, canonicalNameCmp a b = (canonicalNameCmp b a).swap) ∧
    (∀ a b c, canonicalNameCmp a b ≠ .gt → canonicalNameCmp b c ≠ .gt → canonicalNameCmp a c ≠ .gt) ∧
    ∀ (names : List RawName) (q : RawName), names ≠ [] → (∀ n ∈ names, Obtainable n) → Obtainable q →
      names.Pairwise (fun a b => canonicalNameCmp a b = .lt) →
      (names.zip (names.rotate 1)).countP (fun link => nameCoveredBy q link.1 link.2) =
        if q ∈ names then 0 else 1 := by
  refine ⟨fun a b ha hb => ?_, fun a b => ?_, fun a b c hab hbc => ?_, fun names q => countP_nameCoveredBy⟩
  · rw [(compares_canonicalNameCmp a b).eq_eq, collectLabels_inj ha hb, equal, decide_eq_true_eq]
    exact ⟨congrArg wire, fun h => congrArg mk h⟩
  · exact (compares_canonicalNameCmp a b).inj (compares_canonicalNameCmp b a).swap
  · rw [(compares_canonicalNameCmp _ _).ne_gt] at *
    exact hab.trans hbc

/-! ### Subdomains by their text -/

/-- `strings.ToLower` of a name's text, which has printable ASCII letters only. -/
def lowerText (n : RawName) : Bytes := n.string.map foldByte

def nameSuffixEqualOrSubdomain (sub parent : RawName) : Bool :=
  if sub.equal parent then true
  else if parent.lowerText = [0x2e] then true
  else (0x2e :: parent.lowerText).isSuffixOf sub.lowerText

section Text

variable {l t : Bytes} {ls ms : List Bytes}

theorem map_foldByte_escapeByte (b : UInt8) : (escapeByte b).map foldByte = escapeByte (foldByte b) :=
  forall_byte (P := fun b => (escapeByte b).map foldByte = escapeByte (foldByte b)) (by decide +kernel) b

theorem map_foldByte_escapeLabel (l : Bytes) : (escapeLabel l).map foldByte = escapeLabel (foldLabel l) := by
  simp [escapeLabel, foldLabel, map_flatMap, flatMap_map, map_foldByte_escapeByte]
  rfl

theorem dot_suffix_escapeByte {b : UInt8} {w : Bytes} (h : escapeByte b = w ++ 0x2e :: t) : b = 0x2e ∧ t = [] := by
  have hall := forall_byte (P := fun b => ∀ s ∈ (escapeByte b).tails, s.head? = some 0x2e → b = 0x2e ∧ s = [0x2e])
    (by decide +kernel) b (0x2e :: t) ((mem_tails _ _).mpr ⟨w, h.symm⟩) rfl
  exact ⟨hall.1, tail_eq_of_cons_eq hall.2⟩

theorem dot_suffix_escapeLabel (h : 0x2e :: t <:+ escapeLabel l) :
    t = [] ∨ ∃ u v, l = u ++ 0x2e :: v ∧ t = escapeLabel v := by
  induction l with
  | nil =>
    rcases suffix_cons_iff.mp h with heq | hnil
    · exact .inl (tail_eq_of_cons_eq heq)
    · exact absurd (suffix_nil.mp hnil) (cons_ne_nil _ _)
  | cons b l ih =>
    have hlater : 0x2e :: t <:+ escapeLabel l → t = [] ∨ ∃ u v, b :: l = u ++ 0x2e :: v ∧ t = escapeLabel v := by grind
    obtain ⟨w, hw⟩ := h
    rw [escapeLabel, flatMap_cons, append_assoc] at hw
    rcases append_eq_append_iff.mp hw with ⟨a, hb, ht⟩ | ⟨a, -, hl⟩
    · cases a with
      | nil => exact hlater ⟨[], ht⟩
      | cons d a =>
        obtain ⟨rfl, hrest⟩ := List.cons.inj ht
        obtain ⟨rfl, rfl⟩ := dot_suffix_escapeByte hb
        exact .inr ⟨[], l, rfl, hrest⟩
    · exact hlater ⟨a, hl.symm⟩

theorem dot_suffix_escapeLabels (h : 0x2e :: t <:+ ls.flatMap escapeLabel) :
    (∃ front back, front ≠ [] ∧ ls = front ++ back ∧ t = back.flatMap escapeLabel) ∨
      ∃ front u v back, ls = front ++ (u ++ 0x2e :: v) :: back ∧ t = (v :: back).flatMap escapeLabel := by
  induction ls with
  | nil => exact absurd (suffix_nil.mp h) (cons_ne_nil _ _)
  | cons l ls ih =>
    have hlater : 0x2e :: t <:+ ls.flatMap escapeLabel →
        (∃ front back, front ≠ [] ∧ l :: ls = front ++ back ∧ t = back.flatMap escapeLabel) ∨
          ∃ front u v back, l :: ls = front ++ (u ++ 0x2e :: v) :: back ∧ t = (v :: back).flatMap escapeLabel := by
      grind
    obtain ⟨w, hw⟩ := h
    rw [flatMap_cons] at hw
    rcases append_eq_append_iff.mp hw with ⟨a, hl, ht⟩ | ⟨a, -, hls⟩
    · cases a with
      | nil => exact hlater ⟨[], ht⟩
      | cons d a =>
        obtain ⟨rfl, rfl⟩ := List.cons.inj ht
        rcases dot_suffix_escapeLabel ⟨w, hl.symm⟩ with rfl | ⟨u, v, rfl, rfl⟩
        · exact .inl ⟨[l], ls, cons_ne_nil _ _, rfl, rfl⟩
        · exact .inr ⟨[], u, v, ls, rfl, rfl⟩
    · exact hlater ⟨a, hls.symm⟩

theorem suffix_escapeLabels {front : List Bytes} (hne : front ≠ []) :
    0x2e :: ms.flatMap escapeLabel <:+ (front ++ ms).flatMap escapeLabel := by
  rw [← dropLast_concat_getLast hne, flatMap_append, flatMap_append, flatMap_singleton, escapeLabel]
  exact ⟨front.dropLast.flatMap escapeLabel ++ (front.getLast hne).flatMap escapeByte, by simp⟩

theorem suffix_escapeLabels_dot (front : List Bytes) (u v : Bytes) (back : List Bytes) :
    0x2e :: (v :: back).flatMap escapeLabel <:+ (front ++ (u ++ 0x2e :: v) :: back).flatMap escapeLabel := by
  have hdot : escapeLabel (u ++ 0x2e :: v) = u.flatMap escapeByte ++ [0x5c] ++ 0x2e :: escapeLabel v := by
    simp [escapeLabel, escapeByte]
  rw [flatMap_append, flatMap_cons, flatMap_cons, hdot]
  exact ⟨front.flatMap escapeLabel ++ (u.flatMap escapeByte ++ [0x5c]), by simp⟩

end Text

/-- The text of `parent` stands behind a dot in the text of `sub`: its labels end those of `sub` but for the case of
letters, or its first label is what a label of `sub` has behind a dot of its own. -/
def TextBelow (sub parent : RawName) : Prop :=
  (∃ front, front ≠ [] ∧ sub.labels.map foldLabel = front ++ parent.labels.map foldLabel) ∨
    ∃ front u v back, sub.labels.map foldLabel = front ++ (u ++ 0x2e :: v) :: back ∧
      parent.labels.map foldLabel = v :: back

section Subdomain

variable {sub parent : RawName}

theorem lowerText_eq (h : Obtainable n) : n.lowerText =
    if n.labels = [] then [0x2e] else (n.labels.map foldLabel).flatMap escapeLabel := by
  have hencodes := encodes_labels h
  cases hls : n.labels with
  | nil =>
    rw [hls] at hencodes
    rw [lowerText, show n = .root from congrArg RawName.mk hencodes.2.1]
    rfl
  | cons l ls => grind [lowerText, string_eq_of_cons, flatMap_map, map_foldByte_escapeLabel]

theorem lowerText_ne (h : Obtainable n) (hne : n.labels ≠ []) : n.lowerText ≠ [0x2e] := by
  obtain ⟨l, ls, hls⟩ := exists_cons_of_ne_nil hne
  have hlabel := (encodes_labels h).1 l (hls ▸ .head _)
  obtain ⟨b, l, rfl⟩ := exists_cons_of_length_pos hlabel.1
  rw [lowerText_eq h, if_neg hne, hls, map_cons, flatMap_cons, escapeLabel, foldLabel, map_cons, flatMap_cons,
    append_assoc, append_assoc]
  exact Name.escapeByte_append_ne _ _ _

theorem lowerText_ne_nil (h : Obtainable n) : n.lowerText ≠ [] := by
  rw [lowerText_eq h]
  split
  · exact cons_ne_nil _ _
  · rename_i hne
    obtain ⟨l, ls, hls⟩ := exists_cons_of_ne_nil hne
    rw [hls, map_cons, flatMap_cons]
    exact append_ne_nil_of_left_ne_nil (Name.escapeLabel_ne_nil _) _

theorem suffix_lowerText_iff (hsub : Obtainable sub) (hparent : Obtainable parent) (hne : parent.labels ≠ []) :
    0x2e :: parent.lowerText <:+ sub.lowerText ↔ TextBelow sub parent := by
  rw [lowerText_eq hparent, if_neg hne, lowerText_eq hsub]
  by_cases hroot : sub.labels = []
  · refine iff_of_false ?_ ?_
    · rw [if_pos hroot]
      intro h
      have hlen := h.length_le
      have hpos := length_pos_iff.mpr (lowerText_ne_nil hparent)
      rw [lowerText_eq hparent, if_neg hne] at hpos
      simp only [length_cons, length_nil] at hlen
      omega
    · rw [TextBelow, hroot]
      simp
  · rw [if_neg hroot]
    constructor
    · intro h
      rcases dot_suffix_escapeLabels h with ⟨front, back, hfront, hls, ht⟩ | ⟨front, u, v, back, hls, ht⟩
      · exact .inl ⟨front, hfront, by rw [hls, Name.escapeLabels_inj ht]⟩
      · exact .inr ⟨front, u, v, back, hls, Name.escapeLabels_inj ht⟩
    · rintro (⟨front, hfront, hls⟩ | ⟨front, u, v, back, hls, hparent⟩)
      · rw [hls]
        exact suffix_escapeLabels hfront
      · rw [hls, hparent]
        exact suffix_escapeLabels_dot front u v back

theorem nameSuffixEqualOrSubdomain_eq_true (hsub : Obtainable sub) (hparent : Obtainable parent) :
    nameSuffixEqualOrSubdomain sub parent = true ↔ parent.labels <:+ sub.labels ∨ TextBelow sub parent := by
  by_cases hequal : sub = parent
  · subst hequal
    simp [nameSuffixEqualOrSubdomain, equal, suffix_rfl]
  · by_cases hroot : parent.labels = []
    · simp [lowerText_eq, nameSuffixEqualOrSubdomain, *]
    · have hne : ¬sub.equal parent = true := fun h => hequal (congrArg mk (of_decide_eq_true h))
      rw [nameSuffixEqualOrSubdomain, if_neg hne, if_neg (lowerText_ne hparent hroot), isSuffixOf_iff_suffix,
        suffix_lowerText_iff hsub hparent hroot]
      refine ⟨.inr, fun h => h.elim (fun hsuffix => ?_) id⟩
      obtain ⟨front, hfront⟩ := hsuffix
      refine .inl ⟨front.map foldLabel, fun hnil => hequal ?_, by rw [← hfront, map_append]⟩
      rw [map_eq_nil_iff.mp hnil] at hfront
      exact eq_of_labels hsub hparent hfront.symm

/-- **Below a name.** The test says whether the labels of `parent` end those of `sub`, exactly for names whose texts do
not pretend it. -/
theorem nameSuffixEqualOrSubdomain_iff (hsub : Obtainable sub) (hparent : Obtainable parent) :
    (nameSuffixEqualOrSubdomain sub parent = true ↔ parent.labels <:+ sub.labels) ↔
      (TextBelow sub parent → parent.labels <:+ sub.labels) := by
  rw [nameSuffixEqualOrSubdomain_eq_true hsub hparent]
  exact ⟨fun h hbelow => h.mp (.inr hbelow), fun h => ⟨fun h' => h'.elim id h, .inl⟩⟩

end Subdomain

/-- The name `a\.b.` has one label, which ends in a dot and the text of `b.`. -/
theorem nameSuffixEqualOrSubdomain_dot :
    fromLabels [[0x61, 0x2e, 0x62]] = .ok ⟨[3, 0x61, 0x2e, 0x62, 0]⟩ ∧ fromLabels [[0x62]] = .ok ⟨[1, 0x62, 0]⟩ ∧
      nameSuffixEqualOrSubdomain ⟨[3, 0x61, 0x2e, 0x62, 0]⟩ ⟨[1, 0x62, 0]⟩ = true ∧
      ¬labels ⟨[1, 0x62, 0]⟩ <:+ labels ⟨[3, 0x61, 0x2e, 0x62, 0]⟩ := by
  decide

theorem nameSuffixEqualOrSubdomain_below :
    nameSuffixEqualOrSubdomain ⟨[1, 0x61, 1, 0x62, 0]⟩ ⟨[1, 0x62, 0]⟩ = true ↔
      labels ⟨[1, 0x62, 0]⟩ <:+ labels ⟨[1, 0x61, 1, 0x62, 0]⟩ :=
  (nameSuffixEqualOrSubdomain_iff (.made (c := .labels [[0x61], [0x62]]) rfl) (.made (c := .labels [[0x62]]) rfl)).mpr
    fun _ => by decide

end RawName

end Acidns
