import Acidns.Lib.Chain
import Acidns.Wire.Presentation

/-!
# The canonical order of names

`validatorbb/name.go`: names are compared label by label from the root, so a name is the path of its labels
from the root and the order is the lexicographic one. The names at or below a name are then an interval.
-/

instance byteLinearOrder : LinearOrder UInt8 where
  le_refl := UInt8.le_refl
  le_trans := fun _ _ _ => UInt8.le_trans
  le_antisymm := fun _ _ => UInt8.le_antisymm
  le_total := UInt8.le_total
  lt_iff_le_not_ge := by
    intro a b
    rw [UInt8.not_le]
    exact ⟨fun h => ⟨UInt8.le_of_lt h, h⟩, And.right⟩
  toDecidableLE := inferInstance

namespace Acidns

open List

def compareBytes (a b : Bytes) : Ordering := List.compareLex compare a b

/-- The labels from the root down, as RFC 4034 compares them. -/
def collectLabels (n : Name) : List Bytes := n.labels.reverse

/-- The sign of `CanonicalNameCmp`: the first labels that differ decide, then the number of labels. -/
def canonicalNameCmp (a b : Name) : Ordering := List.compareLex compareBytes (collectLabels a) (collectLabels b)

/-- The name lies strictly between owner and next, round the end of the chain. -/
def nameCoveredBy (qname owner next : Name) : Bool :=
  if canonicalNameCmp owner next = .lt then canonicalNameCmp owner qname = .lt && canonicalNameCmp qname next = .lt
  else canonicalNameCmp owner qname = .lt || canonicalNameCmp qname next = .lt

/-- The wildcard child of an encloser. -/
def wildcardOf (encloser : Name) : Except WireError Name := nameFromLabels ([0x2a] :: encloser.labels)

def longestCommonAncestor (a b : Name) : Name :=
  let matched := Chain.common (collectLabels a) (collectLabels b)
  if matched = [] then .root
  else
    match nameFromLabels matched.reverse with
    | .ok n => n
    | .error _ => .root

/-- The longer of the ancestors shared with owner and with next. -/
def deeperAncestor (qname owner next : Name) : Name :=
  let encA := longestCommonAncestor qname owner
  let encB := longestCommonAncestor qname next
  if encB.numLabels > encA.numLabels then encB else encA

/-- The loop of `TruncateNameTo`; a name has no more ancestors than labels. -/
def truncateLoop (k : Nat) : (fuel : Nat) → (cur : Name) → Name
  | 0, cur => cur
  | fuel + 1, cur =>
    if cur.numLabels > k then
      match cur.parent with
      | some parent => truncateLoop k fuel parent
      | none => cur
    else cur

/-- The last `k` labels of a name. -/
def truncateNameTo (name : Name) (k : Nat) : Name := truncateLoop k name.numLabels name

/-! ### The order -/

theorem compares_compareBytes (a b : Bytes) : (compareBytes a b).Compares a b :=
  Chain.compares_compareLex (fun u v => (compare_iff u v).mp rfl) a b

theorem compares_canonicalNameCmp (a b : Name) : (canonicalNameCmp a b).Compares (collectLabels a) (collectLabels b) :=
  Chain.compares_compareLex compares_compareBytes _ _

variable {a owner next n q : Name}

theorem canonicalNameCmp_eq_lt {b : Name} : canonicalNameCmp a b = .lt ↔ collectLabels a < collectLabels b :=
  (compares_canonicalNameCmp a b).eq_lt

theorem nameCoveredBy_iff {qname : Name} :
    nameCoveredBy qname owner next = true ↔
      Chain.Covers (collectLabels owner) (collectLabels next) (collectLabels qname) := by
  unfold nameCoveredBy Chain.Covers
  simp only [canonicalNameCmp_eq_lt]
  split <;> simp

/-! ### Names as paths -/

namespace Name

variable {a b m n : Name}

theorem encloses_iff_collectLabels (hm : m.isValid) (hn : n.isValid) :
    m.Encloses n ↔ collectLabels m <+: collectLabels n := by
  grind [collectLabels, Encloses]

theorem Encloses.collectLabels (h : m.Encloses n) : collectLabels m <+: collectLabels n :=
  (encloses_iff_collectLabels h.1 h.2.1).mp h

theorem collectLabels_injective (hm : m.isValid) (hn : n.isValid)
    (h : Acidns.collectLabels m = Acidns.collectLabels n) : m = n :=
  ext_of_labels hm hn (reverse_injective h)

theorem Encloses.total (ha : a.Encloses n) (hb : b.Encloses n) : a.Encloses b ∨ b.Encloses a := by
  grind [encloses_iff_collectLabels, List.prefix_or_prefix_of_prefix, Encloses]

theorem Encloses.of_numLabels_le (ha : a.Encloses n) (hb : b.Encloses n) (hle : a.numLabels ≤ b.numLabels) :
    a.Encloses b := by
  rcases ha.total hb with hab | hba
  · exact hab
  · have hlabels : b.labels = a.labels := hba.2.2.eq_of_length_le hle
    rw [ext_of_labels ha.1 hb.1 hlabels.symm]
    exact .refl hb.1

theorem Encloses.numLabels_le (h : m.Encloses n) : m.numLabels ≤ n.numLabels := h.2.2.length_le

theorem Encloses.numLabels_lt (h : m.Encloses n) (hne : n ≠ m) : m.numLabels < n.numLabels := by
  refine Nat.lt_of_le_of_ne h.numLabels_le fun hlen => hne ?_
  exact (ext_of_labels h.1 h.2.1 (h.2.2.eq_of_length hlen)).symm

theorem exists_of_isPrefix (hn : n.isValid) {path : List Bytes} (h : path <+: Acidns.collectLabels n) :
    ∃ m : Name, m.isValid = true ∧ Acidns.collectLabels m = path := by
  grind [collectLabels, List.reverse_reverse, exists_of_suffix]

end Name

theorem longestCommonAncestor_spec (ha : a.isValid) (b : Name) :
    (longestCommonAncestor a b).isValid = true ∧
      collectLabels (longestCommonAncestor a b) = Chain.common (collectLabels a) (collectLabels b) := by
  have hcommon : Chain.common (collectLabels a) (collectLabels b) <+: collectLabels a :=
    (Chain.isPrefix_common_iff.mp prefix_rfl).1
  obtain ⟨m, hm, hpath⟩ := Name.exists_of_isPrefix ha hcommon
  have hresult : longestCommonAncestor a b = m := by
    unfold longestCommonAncestor
    rw [← hpath]
    dsimp only
    split
    · next hnil =>
      refine Name.collectLabels_injective rfl hm ?_
      rw [hnil, collectLabels, Name.labels_root, reverse_nil]
    · rw [collectLabels, reverse_reverse, nameFromLabels_labels hm]
  rw [hresult]
  exact ⟨hm, hpath⟩

theorem encloses_longestCommonAncestor (ha : a.isValid) (b : Name) : (longestCommonAncestor a b).Encloses a := by
  obtain ⟨hvalid, hpath⟩ := longestCommonAncestor_spec ha b
  rw [Name.encloses_iff_collectLabels hvalid ha, hpath]
  exact (Chain.isPrefix_common_iff.mp prefix_rfl).1

theorem encloses_deeperAncestor_iff (hq : q.isValid) (howner : owner.isValid)
    (hnext : next.isValid) (hnq : n.Encloses q) :
    n.Encloses (deeperAncestor q owner next) ↔ n.Encloses owner ∨ n.Encloses next := by
  obtain ⟨hvalidA, hpathA⟩ := longestCommonAncestor_spec hq owner
  obtain ⟨hvalidB, hpathB⟩ := longestCommonAncestor_spec hq next
  have hA : n.Encloses (longestCommonAncestor q owner) ↔ n.Encloses owner := by
    rw [Name.encloses_iff_collectLabels hnq.1 hvalidA, Name.encloses_iff_collectLabels hnq.1 howner, hpathA,
      Chain.isPrefix_common_iff, and_iff_right hnq.collectLabels]
  have hB : n.Encloses (longestCommonAncestor q next) ↔ n.Encloses next := by
    rw [Name.encloses_iff_collectLabels hnq.1 hvalidB, Name.encloses_iff_collectLabels hnq.1 hnext, hpathB,
      Chain.isPrefix_common_iff, and_iff_right hnq.collectLabels]
  have hAq := encloses_longestCommonAncestor hq owner
  have hBq := encloses_longestCommonAncestor hq next
  rw [← hA, ← hB]
  unfold deeperAncestor
  dsimp only
  split
  · next hdeeper =>
    refine ⟨.inr, fun h => h.elim (fun hnA => hnA.trans ?_) id⟩
    exact hAq.of_numLabels_le hBq (Nat.le_of_lt hdeeper)
  · next hdeeper =>
    refine ⟨.inl, fun h => h.elim id fun hnB => hnB.trans ?_⟩
    exact hBq.of_numLabels_le hAq (Nat.not_lt.mp hdeeper)

theorem encloses_deeperAncestor (hq : q.isValid) (owner next : Name) :
    (deeperAncestor q owner next).Encloses q := by
  grind [deeperAncestor, encloses_longestCommonAncestor]

theorem truncateLoop_spec {k fuel : Nat} (hn : n.isValid) (hk : k ≤ n.numLabels) (hfuel : n.numLabels ≤ fuel) :
    (truncateLoop k fuel n).Encloses n ∧ (truncateLoop k fuel n).numLabels = k := by
  induction fuel generalizing n with
  | zero => exact ⟨.refl hn, by rw [truncateLoop]; omega⟩
  | succ fuel ih =>
    rw [truncateLoop]
    split
    · next hlong =>
      cases hlabels : n.labels with
      | nil =>
        rw [Name.numLabels, hlabels] at hlong
        exact absurd hlong (Nat.not_lt_zero _)
      | cons l ls =>
        obtain ⟨p, hp, hvalid, hls⟩ := Name.parent_of_labels_cons hn hlabels
        have hnum : n.numLabels = p.numLabels + 1 := by rw [Name.numLabels, Name.numLabels, hlabels, hls]; rfl
        rw [hp]
        obtain ⟨habove, hcount⟩ := ih hvalid (by omega) (by omega)
        exact ⟨habove.trans (Name.encloses_of_parent hn hp), hcount⟩
    · exact ⟨.refl hn, by omega⟩

theorem truncateNameTo_spec {k : Nat} (hn : n.isValid) (hk : k ≤ n.numLabels) :
    (truncateNameTo n k).Encloses n ∧ (truncateNameTo n k).numLabels = k :=
  truncateLoop_spec hn hk (Nat.le_refl _)

theorem wildcardOf_spec {e w : Name} (h : wildcardOf e = .ok w) : w.isValid = true ∧ w.labels = [0x2a] :: e.labels := by
  obtain ⟨hw, hlabels⟩ := labels_of_nameFromLabels h
  refine ⟨hw, ?_⟩
  have hfold : foldLabel [0x2a] = [0x2a] := by decide
  rw [hlabels, map_cons, map_foldLabel_eq e.isNameLabel_labels, hfold]

theorem truncateNameTo_eq (h : n.Encloses q) : truncateNameTo q n.numLabels = n := by
  obtain ⟨habove, hcount⟩ := truncateNameTo_spec h.2.1 h.numLabels_le
  exact (habove.of_numLabels_le h (Nat.le_of_eq hcount)).antisymm (h.of_numLabels_le habove (Nat.le_of_eq hcount.symm))

theorem wildcardOf_of_encloses {e : Name} (h : e.Encloses q) (hne : q ≠ e) : ∃ w, wildcardOf e = .ok w := by
  obtain ⟨front, hlabels⟩ := h.2.2
  have hfront : front ≠ [] := by
    rintro rfl
    exact hne (Name.ext_of_labels h.2.1 h.1 hlabels.symm)
  obtain ⟨front, l, rfl⟩ : ∃ front' l, front = front' ++ [l] := ⟨_, _, (dropLast_concat_getLast hfront).symm⟩
  rw [append_assoc, singleton_append] at hlabels
  have hl : IsNameLabel l := Name.isNameLabel_of_mem_labels (hlabels ▸ mem_append_right _ (.head _))
  have hstar : ∀ l ∈ [0x2a] :: e.labels, IsNameLabel l :=
    forall_mem_cons.mpr ⟨by decide, fun _ hm => Name.isNameLabel_of_mem_labels hm⟩
  have hlength : (Labels.encode ([0x2a] :: e.labels)).length ≤ maxNameLen := by
    have hsuffix := Name.length_encode_le_of_suffix (suffix_append front (l :: e.labels))
    have hq := q.length_wire_le
    rw [Name.wire_eq_encode h.2.1, ← hlabels] at hq
    have hpos := hl.1.1
    rw [Labels.length_encode_cons] at hsuffix ⊢
    rw [length_singleton]
    omega
  obtain ⟨hvalid, hname⟩ := Name.labels_ofLabels hstar hlength
  refine ⟨Name.ofLabels _ hstar hlength, ?_⟩
  have hbuild := nameFromLabels_labels hvalid
  rw [hname] at hbuild
  exact hbuild

end Acidns
