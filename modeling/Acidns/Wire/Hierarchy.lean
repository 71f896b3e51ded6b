import Acidns.Wire.Name

/-!
# The hierarchy of names

A valid name is its list of labels, the most specific first. Its parent drops the first label, so the
names at or above it are the suffixes of its labels.
-/

namespace Acidns.Name

variable {n m p : Name}

@[simp] theorem labels_root : root.labels = [] := by decide

theorem wire_of_valid (hn : n.isValid) : n.appendWire [] = n.wire := by
  rw [appendWire, if_pos hn, List.nil_append]

theorem ext_of_labels (hn : n.isValid) (hm : m.isValid) (h : n.labels = m.labels) : n = m := by
  have hwire : n.wire = m.wire := by rw [wire_eq_encode hn, wire_eq_encode hm, h]
  obtain ⟨wire, inv⟩ := n
  obtain ⟨wire', inv'⟩ := m
  simpa using hwire

theorem appendWire_injective (hn : n.isValid) (hm : m.isValid) (h : n.appendWire [] = m.appendWire []) : n = m := by
  rw [wire_of_valid hn, wire_of_valid hm] at h
  obtain ⟨wire, inv⟩ := n
  obtain ⟨wire', inv'⟩ := m
  simpa using h

theorem isNameLabel_labels (n : Name) : ∀ l ∈ n.labels, IsNameLabel l := fun _ => isNameLabel_of_mem_labels

variable {ls : List Bytes}

theorem labels_of_wire (hls : ∀ l ∈ ls, IsNameLabel l) (h : n.wire = Labels.encode ls) :
    n.isValid = true ∧ n.labels = ls := by
  have hn : n.isValid = true := by
    rw [isValid, h]
    simpa using List.length_pos_iff.mpr (Labels.encode_ne_nil ls)
  refine ⟨hn, ?_⟩
  rw [labels, if_pos hn, h]
  exact Labels.split_encode fun l hl => (hls l hl).1

def ofLabels (ls : List Bytes) (hls : ∀ l ∈ ls, IsNameLabel l) (hlen : (Labels.encode ls).length ≤ maxNameLen) : Name :=
  ⟨Labels.encode ls, .inr ⟨ls, hls, rfl, hlen⟩⟩

theorem labels_ofLabels (hls : ∀ l ∈ ls, IsNameLabel l)
    (hlen : (Labels.encode ls).length ≤ maxNameLen) :
    (ofLabels ls hls hlen).isValid = true ∧ (ofLabels ls hls hlen).labels = ls :=
  labels_of_wire hls rfl

theorem length_encode_le_of_suffix {ls' : List Bytes} (h : ls <:+ ls') :
    (Labels.encode ls).length ≤ (Labels.encode ls').length := by
  obtain ⟨front, rfl⟩ := h
  induction front with
  | nil => exact Nat.le_refl _
  | cons l front ih =>
    rw [List.cons_append, Labels.length_encode_cons]
    omega

section

variable (hn : n.isValid)

include hn

theorem exists_of_suffix (h : ls <:+ n.labels) : ∃ m : Name, m.isValid = true ∧ m.labels = ls := by
  have hls : ∀ l ∈ ls, IsNameLabel l := fun l hl => isNameLabel_of_mem_labels (h.mem hl)
  have hlen : (Labels.encode ls).length ≤ maxNameLen := by
    have hle := length_encode_le_of_suffix h
    rw [← wire_eq_encode hn] at hle
    exact Nat.le_trans hle n.length_wire_le
  exact ⟨ofLabels ls hls hlen, labels_ofLabels hls hlen⟩

/-! ### Parents -/

theorem parent_of_labels_cons {l : Bytes} {ls : List Bytes} (h : n.labels = l :: ls) :
    ∃ p, n.parent = some p ∧ p.isValid = true ∧ p.labels = ls := by
  have hwire := wire_eq_encode hn
  rw [h] at hwire
  have hl : IsNameLabel l := isNameLabel_of_mem_labels (h ▸ List.mem_cons_self)
  have hls : ∀ k ∈ ls, IsNameLabel k := fun k hk => isNameLabel_of_mem_labels (h ▸ List.mem_cons_of_mem _ hk)
  have hcond : n.wire ≠ [] ∧ n.wire ≠ [0] := by simp [Labels.encode, Labels.encode_ne_nil, *]
  refine ⟨_, dif_pos hcond, labels_of_wire hls ?_⟩
  show n.wire.drop (1 + (n.wire.headD 0).toNat) = Labels.encode ls
  rw [hwire]
  exact Labels.drop_encode_cons hl.1

theorem parent_of_labels_nil (h : n.labels = []) : n.parent = none := by
  have hwire := wire_eq_encode hn
  rw [h] at hwire
  exact dif_neg fun hcond => hcond.2 hwire

theorem labels_of_parent (h : n.parent = some p) : p.isValid = true ∧ ∃ l, n.labels = l :: p.labels := by
  cases hlabels : n.labels with
  | nil => rw [parent_of_labels_nil hn hlabels] at h; cases h
  | cons l ls => grind [parent_of_labels_cons]

theorem length_labels_lt_wire : n.labels.length < n.wire.length := by
  rw [wire_eq_encode hn]
  exact Labels.length_lt_length_encode _

end

/-! ### Names at or below another -/

/-- `n` is at or below `origin`. -/
def Encloses (origin n : Name) : Prop := origin.isValid = true ∧ n.isValid = true ∧ origin.labels <:+ n.labels

instance (origin n : Name) : Decidable (origin.Encloses n) := inferInstanceAs (Decidable (_ ∧ _ ∧ _))

theorem Encloses.refl (hn : n.isValid) : Encloses n n := ⟨hn, hn, List.suffix_rfl⟩

theorem Encloses.trans (h : Encloses m n) (h' : Encloses n p) : Encloses m p :=
  ⟨h.1, h'.2.1, h.2.2.trans h'.2.2⟩

theorem Encloses.antisymm (h : Encloses m n) (h' : Encloses n m) : m = n :=
  ext_of_labels h.1 h.2.1 (h.2.2.eq_of_length_le h'.2.2.length_le)

theorem encloses_of_parent (hn : n.isValid) (h : n.parent = some p) : p.Encloses n := by
  grind [labels_of_parent, Encloses]

theorem encloses_iff_parent (hn : n.isValid) : Encloses m n ↔ m = n ∨ ∃ p, n.parent = some p ∧ Encloses m p := by
  constructor
  · rintro ⟨hm, -, hsuffix⟩
    cases hlabels : n.labels with
    | nil =>
      rw [hlabels, List.suffix_nil] at hsuffix
      exact .inl (ext_of_labels hm hn (hsuffix.trans hlabels.symm))
    | cons l ls =>
      rw [hlabels, List.suffix_cons_iff] at hsuffix
      rcases hsuffix with heq | hsuffix
      · exact .inl (ext_of_labels hm hn (heq.trans hlabels.symm))
      · obtain ⟨p, hp, hvalid, hls⟩ := parent_of_labels_cons hn hlabels
        exact .inr ⟨p, hp, hm, hvalid, hls ▸ hsuffix⟩
  · rintro (rfl | ⟨p, hp, hbelow⟩)
    · exact .refl hn
    · exact hbelow.trans (encloses_of_parent hn hp)

end Acidns.Name
