import Acidns.Recursive.AggressiveNsec

/-!
# The sort key against the canonical order

The sort key of `recursive/aggressive_nsec.go` is to order names as `CanonicalNameCmp` does. It has the
length of each label in front of the label, so it compares labels by their lengths first: two names stand in
the same order exactly if, where their paths part, the smaller label is not the longer one.
-/

namespace Acidns

open List

/-- Where the two paths part, the smaller label is not the longer one. -/
def Aligned (p q : List Bytes) : Prop :=
  ∀ r u v, r ++ [u] <+: p → r ++ [v] <+: q → (u < v → u.length ≤ v.length) ∧ (v < u → v.length ≤ u.length)

namespace Aligned

variable {p q : List Bytes} {u v : Bytes}

theorem symm (h : Aligned p q) : Aligned q p := fun r u v hu hv => (h r v u hv hu).symm

theorem comm : Aligned p q ↔ Aligned q p := ⟨symm, symm⟩

theorem nil_left (q : List Bytes) : Aligned [] q := by
  intro r u v hu
  simp at hu

theorem nil_right (p : List Bytes) : Aligned p [] := (nil_left p).symm

theorem cons_cons_of_ne (h : u ≠ v) :
    Aligned (u :: p) (v :: q) ↔ (u < v → u.length ≤ v.length) ∧ (v < u → v.length ≤ u.length) := by
  constructor
  · intro haligned
    exact haligned [] u v (by simp) (by simp)
  · intro hfirst r u' v' hu hv
    cases r with
    | nil =>
      simp only [nil_append, cons_prefix_cons, nil_prefix, and_true] at hu hv
      rw [hu, hv]
      exact hfirst
    | cons w r =>
      simp only [cons_append, cons_prefix_cons] at hu hv
      exact absurd (hu.1.symm.trans hv.1) h

theorem cons_cons_self : Aligned (u :: p) (u :: q) ↔ Aligned p q := by
  constructor
  · intro haligned r u' v' hu hv
    apply haligned (u :: r) u' v'
    · simpa using hu
    · simpa using hv
  · intro haligned r u' v' hu hv
    cases r with
    | nil => grind
    | cons w r =>
      simp only [cons_append, cons_prefix_cons] at hu hv
      exact haligned r u' v' hu.2 hv.2

theorem refl (p : List Bytes) : Aligned p p := by
  induction p with
  | nil => exact nil_left []
  | cons u p ih => exact cons_cons_self.mpr ih

end Aligned

namespace Recursive

/-! ### The order of the sort keys -/

def sortLabelCmp (u v : Bytes) : Ordering := (compare u.length v.length).then (compareBytes u v)

section Labels

variable {p q : List Bytes} {u v : Bytes}

theorem compareBytes_eq_eq : compareBytes u v = .eq ↔ u = v := (compares_compareBytes u v).eq_eq

theorem compare_ofNat {n m : Nat} (hn : n < 256) (hm : m < 256) :
    compare (UInt8.ofNat n) (UInt8.ofNat m) = compare n m := by
  rw [compare_iff]
  cases h : compare n m with
  | lt =>
    rw [compare_lt_iff_lt] at h
    simpa [Ordering.Compares, UInt8.lt_iff_toNat_lt, Nat.mod_eq_of_lt hn, Nat.mod_eq_of_lt hm] using h
  | eq => rw [compare_eq_iff_eq.mp h]; rfl
  | gt =>
    rw [compare_gt_iff_gt] at h
    simpa [Ordering.Compares, UInt8.lt_iff_toNat_lt, Nat.mod_eq_of_lt hn, Nat.mod_eq_of_lt hm] using h

theorem compareBytes_length_cons (hu : IsNameLabel u) (hv : IsNameLabel v) (x y : Bytes) :
    compareBytes (UInt8.ofNat u.length :: (u ++ x)) (UInt8.ofNat v.length :: (v ++ y)) =
      (sortLabelCmp u v).then (compareBytes x y) := by
  have hlengthU := hu.1.2
  have hlengthV := hv.1.2
  rw [compareBytes, List.compareLex_cons_cons, compare_ofNat (by omega) (by omega), sortLabelCmp]
  cases h : compare u.length v.length with
  | lt => rfl
  | gt => rfl
  | eq => exact Chain.compareLex_append (compare_eq_iff_eq.mp h) x y

theorem compare_zero_length (hu : IsNameLabel u) :
    compare 0 (UInt8.ofNat u.length) = .lt ∧ compare (UInt8.ofNat u.length) 0 = .gt := by
  have hpos := hu.1.1
  have hlength := hu.1.2
  have hzero : (0 : UInt8) = UInt8.ofNat 0 := rfl
  rw [hzero, compare_ofNat (by omega) (by omega), compare_ofNat (by omega) (by omega), compare_lt_iff_lt,
    compare_gt_iff_gt]
  exact ⟨hpos, hpos⟩

theorem compareBytes_flatMap (hp : ∀ l ∈ p, IsNameLabel l) (hq : ∀ l ∈ q, IsNameLabel l) :
    compareBytes (p.flatMap (fun v => UInt8.ofNat v.length :: v) ++ [0])
        (q.flatMap (fun v => UInt8.ofNat v.length :: v) ++ [0]) = List.compareLex sortLabelCmp p q := by
  induction p generalizing q with
  | nil =>
    cases q with
    | nil => rfl
    | cons v q =>
      rw [compareBytes, flatMap_nil, nil_append, flatMap_cons, cons_append, cons_append,
        List.compareLex_cons_cons, (compare_zero_length (hq v (.head _))).1]
      rfl
  | cons u p ih =>
    cases q with
    | nil =>
      rw [compareBytes, flatMap_nil, nil_append, flatMap_cons, cons_append, cons_append,
        List.compareLex_cons_cons, (compare_zero_length (hp u (.head _))).2]
      rfl
    | cons v q => grind [compareBytes_length_cons, List.compareLex_cons_cons]

end Labels

theorem compareBytes_canonicalKey (a b : Name) :
    compareBytes (canonicalKey a) (canonicalKey b) =
      List.compareLex sortLabelCmp (collectLabels a) (collectLabels b) := by
  grind [compareBytes_flatMap, Name.isNameLabel_labels, canonicalKey, collectLabels]

/-! ### Against the canonical order -/

section Compare

variable {p q : List Bytes} {u v : Bytes}

theorem sortLabelCmp_eq (h : u ≠ v) :
    sortLabelCmp u v =
      if (u < v → u.length ≤ v.length) ∧ (v < u → v.length ≤ u.length) then compareBytes u v
      else (compareBytes u v).swap := by
  have hcompare := compares_compareBytes u v
  unfold sortLabelCmp
  cases hlex : compareBytes u v with
  | eq => exact absurd (compareBytes_eq_eq.mp hlex) h
  | lt =>
    rw [hlex] at hcompare
    have hlt : u < v := hcompare
    simp only [hlt, hlt.not_gt, true_implies, false_implies, and_true]
    split
    · next hle =>
      rcases Nat.lt_or_eq_of_le hle with hlt | heq
      · rw [compare_lt_iff_lt.mpr hlt]; rfl
      · rw [compare_eq_iff_eq.mpr heq]; rfl
    · next hle => rw [compare_gt_iff_gt.mpr (Nat.lt_of_not_le hle)]; rfl
  | gt =>
    rw [hlex] at hcompare
    have hlt : v < u := hcompare
    simp only [hlt, hlt.not_gt, true_implies, false_implies, true_and]
    split
    · next hle =>
      rcases Nat.lt_or_eq_of_le hle with hlt | heq
      · rw [compare_gt_iff_gt.mpr hlt]; rfl
      · rw [compare_eq_iff_eq.mpr heq.symm]; rfl
    · next hle => rw [compare_lt_iff_lt.mpr (Nat.lt_of_not_le hle)]; rfl

/-- Both orders agree on aligned names, and are opposite on the others. -/
theorem compareLex_sortLabelCmp (p q : List Bytes) :
    (Aligned p q → List.compareLex sortLabelCmp p q = List.compareLex compareBytes p q) ∧
      (¬Aligned p q → p ≠ q ∧ List.compareLex sortLabelCmp p q = (List.compareLex compareBytes p q).swap) := by
  induction p generalizing q with
  | nil =>
    cases q with
    | nil => exact ⟨fun _ => rfl, fun h => absurd (Aligned.nil_left []) h⟩
    | cons v q => exact ⟨fun _ => rfl, fun h => absurd (Aligned.nil_left _) h⟩
  | cons u p ih =>
    cases q with
    | nil => exact ⟨fun _ => rfl, fun h => absurd (Aligned.nil_right _) h⟩
    | cons v q =>
      rw [List.compareLex_cons_cons, List.compareLex_cons_cons]
      by_cases h : u = v
      · subst h
        have hself : sortLabelCmp u u = .eq := by
          rw [sortLabelCmp, compareBytes_eq_eq.mpr rfl, compare_eq_iff_eq.mpr rfl]
          rfl
        rw [hself, compareBytes_eq_eq.mpr rfl, Aligned.cons_cons_self]
        exact ⟨(ih q).1, fun hnot => ⟨fun heq => ((ih q).2 hnot).1 (List.cons.inj heq).2, ((ih q).2 hnot).2⟩⟩
      · rw [Aligned.cons_cons_of_ne h, sortLabelCmp_eq h]
        have hne : compareBytes u v ≠ .eq := fun heq => h (compareBytes_eq_eq.mp heq)
        constructor
        · intro haligned
          rw [if_pos haligned]
          cases hlex : compareBytes u v with
          | eq => exact absurd hlex hne
          | lt => rfl
          | gt => rfl
        · intro haligned
          rw [if_neg haligned]
          refine ⟨fun heq => h (List.cons.inj heq).1, ?_⟩
          cases hlex : compareBytes u v with
          | eq => exact absurd hlex hne
          | lt => rfl
          | gt => rfl

end Compare

theorem canonicalKey_lt_iff {a b : Name} (h : collectLabels a ≠ collectLabels b) :
    canonicalKey a < canonicalKey b ↔
      (Aligned (collectLabels a) (collectLabels b) ↔ collectLabels a < collectLabels b) := by
  have hkeys := compareLex_sortLabelCmp (collectLabels a) (collectLabels b)
  have hcompare := compares_canonicalNameCmp a b
  rw [← compareBytes_canonicalKey] at hkeys
  rw [← (compares_compareBytes (canonicalKey a) (canonicalKey b)).eq_lt, ← canonicalNameCmp_eq_lt]
  by_cases haligned : Aligned (collectLabels a) (collectLabels b)
  · rw [hkeys.1 haligned, ← canonicalNameCmp]
    simp only [haligned, true_iff]
  · rw [(hkeys.2 haligned).2, ← canonicalNameCmp]
    simp only [haligned, false_iff]
    cases hlex : canonicalNameCmp a b with
    | eq =>
      rw [hlex] at hcompare
      exact absurd hcompare h
    | lt => decide
    | gt => decide

theorem canonicalKey_injective {a b : Name} (h : canonicalKey a = canonicalKey b) :
    collectLabels a = collectLabels b := by
  by_contra hne
  have hab := canonicalKey_lt_iff hne
  have hba := canonicalKey_lt_iff (Ne.symm hne)
  rw [Aligned.comm] at hba
  simp only [h, lt_irrefl, false_iff] at hab hba
  rcases lt_or_gt_of_ne hne with hlt | hlt
  · simp only [hlt, hlt.not_gt, iff_true, iff_false, not_not] at hab hba
    exact hab hba
  · simp only [hlt, hlt.not_gt, iff_true, iff_false, not_not] at hab hba
    exact hba hab

theorem nsecCovers_iff {owner next q : Name} :
    nsecCovers owner next q = true ↔ Chain.Covers (canonicalKey owner) (canonicalKey next) (canonicalKey q) := by
  have hcmp := fun a b => compares_compareBytes (canonicalKey a) (canonicalKey b)
  simp only [nsecCovers, Chain.Covers, (hcmp _ _).eq_lt, (hcmp _ _).eq_gt]
  split <;> simp

theorem canonicalKey_eq_iff {a b : Name} : canonicalKey a = canonicalKey b ↔ collectLabels a = collectLabels b := by
  refine ⟨canonicalKey_injective, fun h => ?_⟩
  rw [canonicalKey, canonicalKey, h]

theorem covers_canonicalKey_iff (owner next q : Name) :
    (Chain.Covers (canonicalKey owner) (canonicalKey next) (canonicalKey q) ↔
        Chain.Covers (collectLabels owner) (collectLabels next) (collectLabels q)) ↔
      (Aligned (collectLabels owner) (collectLabels next) ↔
        (Aligned (collectLabels owner) (collectLabels q) ↔ Aligned (collectLabels q) (collectLabels next))) := by
  by_cases hab : collectLabels owner = collectLabels next
  · grind [Chain.covers_self_iff, canonicalKey_eq_iff, Aligned.comm, Aligned.refl]
  · by_cases hax : collectLabels owner = collectLabels q
    · rw [← canonicalKey_eq_iff.mpr hax, ← hax]
      simp only [Chain.not_covers_left, Aligned.refl, true_iff]
    · by_cases hxb : collectLabels q = collectLabels next
      · rw [canonicalKey_eq_iff.mpr hxb, hxb]
        simp only [Chain.not_covers_right, Aligned.refl, iff_true]
      · rw [Chain.covers_iff_of_ne hab hax hxb,
          Chain.covers_iff_of_ne (canonicalKey_eq_iff.not.mpr hab) (canonicalKey_eq_iff.not.mpr hax)
            (canonicalKey_eq_iff.not.mpr hxb),
          canonicalKey_lt_iff hab, canonicalKey_lt_iff hax, canonicalKey_lt_iff hxb]
        grind

/-- The sort key agrees with `CanonicalNameCmp` exactly if, where the labels from the root part, the smaller one is not
the longer; `nsecCovers` with `NameCoveredBy` exactly if this fails for none or two of the pairs of its three names. -/
theorem canonicalKey_agrees_iff (a b owner next q : Name) :
    (compareBytes (canonicalKey a) (canonicalKey b) = canonicalNameCmp a b ↔
      Aligned (collectLabels a) (collectLabels b)) ∧
    (nsecCovers owner next q = nameCoveredBy q owner next ↔
      (Aligned (collectLabels owner) (collectLabels next) ↔
        (Aligned (collectLabels owner) (collectLabels q) ↔ Aligned (collectLabels q) (collectLabels next)))) := by
  constructor
  · have hkeys := compareLex_sortLabelCmp (collectLabels a) (collectLabels b)
    rw [← compareBytes_canonicalKey, ← canonicalNameCmp] at hkeys
    refine ⟨fun heq => ?_, hkeys.1⟩
    by_contra hnot
    obtain ⟨hne, hswap⟩ := hkeys.2 hnot
    have hcompare := compares_canonicalNameCmp a b
    rw [heq] at hswap
    cases hlex : canonicalNameCmp a b with
    | eq =>
      rw [hlex] at hcompare
      exact hne hcompare
    | lt => rw [hlex] at hswap; cases hswap
    | gt => rw [hlex] at hswap; cases hswap
  · rw [← covers_canonicalKey_iff, Bool.eq_iff_iff, nsecCovers_iff, nameCoveredBy_iff]

def aa : Name := ⟨[2, 0x61, 0x61, 0], .inr (by decide)⟩

open Name.Short in
/-- `b.` comes before `aa.`, so the record from `a.` to `b.` is not seen to cover `aa.` -/
theorem canonicalKey_disagrees :
    (compareBytes (canonicalKey b) (canonicalKey aa) = .lt ∧ canonicalNameCmp b aa = .gt) ∧
    nsecCovers a b aa = false ∧ nameCoveredBy aa a b = true := by
  decide +kernel

end Recursive

end Acidns
