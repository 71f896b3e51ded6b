import Mathlib.Data.List.Lex
import Mathlib.Data.List.Infix
import Mathlib.Data.List.Rotate
import Mathlib.Order.Lattice

/-!
# Circular chains

A set of points of a linear order is closed to a circle by its chain: each point is linked to the next one,
the last to the first. A point that a link covers is not in the set, and on each side of it the nearest
point of the set is an end of the link.

The points may be paths in a tree, in the lexicographic order. The paths that run through a node are then
an interval that begins with the node, and the two ends of a link tell which nodes on the way to a covered
path lie on paths of the set.
-/

namespace Chain

open List

/-! ### Links -/

section Links

variable {α : Type*} [LinearOrder α] {s : Set α} {a b x y : α}

/-- `x` lies strictly between `a` and `b` on the circle. -/
def Covers (a b x : α) : Prop := if a < b then a < x ∧ x < b else a < x ∨ x < b

instance (a b x : α) : Decidable (Covers a b x) := by unfold Covers; infer_instance

theorem covers_of_lt (hab : a < b) : Covers a b x ↔ a < x ∧ x < b := by
  rw [Covers, if_pos hab]

theorem covers_of_ge (hab : ¬a < b) : Covers a b x ↔ a < x ∨ x < b := by
  rw [Covers, if_neg hab]

theorem covers_iff_of_ne (hab : a ≠ b) (hax : a ≠ x) (hxb : x ≠ b) :
    Covers a b x ↔ (a < b ↔ (a < x ↔ x < b)) := by
  grind [Covers]

theorem not_covers_left : ¬Covers a b a := by
  unfold Covers
  split <;> simp_all

theorem not_covers_right : ¬Covers a b b := by
  unfold Covers
  split <;> simp_all

theorem covers_self_iff : Covers a a x ↔ a ≠ x := by
  rw [Covers, if_neg (lt_irrefl a), ← ne_iff_lt_or_gt]

/-- `b` follows `a` on the circle through the points of `s`. -/
structure Link (s : Set α) (a b : α) : Prop where
  owner : a ∈ s
  next : b ∈ s
  gap : ∀ x ∈ s, ¬Covers a b x

theorem Link.not_mem (h : Link s a b) (hx : Covers a b x) : x ∉ s := fun hmem => h.gap x hmem hx

theorem Link.behind (h : Link s a b) (hx : Covers a b x) (hy : y ∈ s) : y ≤ a ∧ a < x ∨ x < b ∧ b ≤ y := by
  have hgap := h.gap y hy
  by_cases hab : a < b
  · grind [covers_of_lt]
  · grind [covers_of_ge]

theorem countP_covers_from {prev : α} {l : List α} (hsorted : (prev :: l).Pairwise (· < ·)) (hfirst : a ≤ prev) :
    ((prev :: l).zip (l ++ [a])).countP (fun link => decide (Covers link.1 link.2 x)) =
      if x ∈ prev :: l then 0 else if prev < x ∨ x < a then 1 else 0 := by
  induction l generalizing prev with
  | nil => grind [covers_of_ge]
  | cons y l ih =>
    obtain ⟨hprev, hsorted'⟩ := pairwise_cons.mp hsorted
    have hy := hprev y (.head _)
    rw [cons_append, zip_cons_cons, countP_cons, ih hsorted' (hfirst.trans hy.le)]
    simp only [decide_eq_true_eq, covers_of_lt hy, mem_cons (a := x) (b := prev)]
    rcases lt_trichotomy x prev with hlt | rfl | hgt
    · have hnot : x ∉ y :: l := fun hmem => (hprev x hmem).not_gt hlt
      simp [hnot, hlt.ne, hlt.not_gt, (hlt.trans hy).not_gt]
    · have hnot : x ∉ y :: l := fun hmem => (hprev x hmem).ne rfl
      simp [hnot, hy.not_gt, hfirst]
    · have hfar : ¬x < a := (hfirst.trans_lt hgt).not_gt
      by_cases hmem : x ∈ y :: l
      · have hle : y ≤ x := by
          rcases mem_cons.mp hmem with rfl | hmem
          · exact le_rfl
          · exact ((pairwise_cons.mp hsorted').1 x hmem).le
        simp [hmem, hle]
      · grind

theorem countP_covers {l : List α} (hne : l ≠ []) (hsorted : l.Pairwise (· < ·)) :
    (l.zip (l.rotate 1)).countP (fun link => decide (Covers link.1 link.2 x)) = if x ∈ l then 0 else 1 := by
  obtain ⟨a, l, rfl⟩ := exists_cons_of_ne_nil hne
  rw [rotate_cons_succ, rotate_zero, countP_covers_from hsorted le_rfl]
  by_cases hmem : x ∈ a :: l
  · rw [if_pos hmem, if_pos hmem]
  · have hne : a ≠ x := fun heq => hmem (heq ▸ .head _)
    rw [if_neg hmem, if_neg hmem, if_pos (lt_or_gt_of_ne hne)]

end Links

/-! ### Paths -/

section Paths

variable {β : Type*} [LinearOrder β] {s : Set (List β)} {a b d p q x y z : List β}

theorem compares_compareLex {cmp : β → β → Ordering} (hcmp : ∀ u v, (cmp u v).Compares u v) :
    ∀ l l' : List β, (List.compareLex cmp l l').Compares l l'
  | [], [] => rfl
  | [], v :: l' => nil_lt_cons v l'
  | u :: l, [] => nil_lt_cons u l
  | u :: l, v :: l' => by
      rw [List.compareLex_cons_cons]
      have huv := hcmp u v
      cases hout : cmp u v with
      | lt =>
        rw [hout] at huv
        exact List.Lex.rel huv
      | gt =>
        rw [hout] at huv
        exact List.Lex.rel huv
      | eq =>
        rw [hout] at huv
        obtain rfl : u = v := huv
        have hrest := compares_compareLex hcmp l l'
        show (List.compareLex cmp l l').Compares (u :: l) (u :: l')
        cases hrec : List.compareLex cmp l l' with
        | lt => rw [hrec] at hrest; exact List.Lex.cons hrest
        | gt => rw [hrec] at hrest; exact List.Lex.cons hrest
        | eq => rw [hrec] at hrest; exact congrArg (u :: ·) hrest

omit [LinearOrder β] in
theorem compareLex_append {cmp : β → β → Ordering} {u v : List β} (h : u.length = v.length) (x y : List β) :
    List.compareLex cmp (u ++ x) (v ++ y) = (List.compareLex cmp u v).then (List.compareLex cmp x y) := by
  induction u generalizing v with
  | nil =>
    obtain rfl : v = [] := length_eq_zero_iff.mp h.symm
    rfl
  | cons b u ih =>
    cases v with
    | nil => cases h
    | cons c v => grind [List.compareLex_cons_cons]

theorem isPrefix_of_between (hx : p <+: x) (hz : p <+: z) (hxy : x ≤ y) (hyz : y ≤ z) : p <+: y := by
  induction p generalizing x y z with
  | nil => exact nil_prefix
  | cons u p ih =>
    obtain ⟨x, rfl, hpx⟩ := cons_prefix_iff.mp hx
    obtain ⟨z, rfl, hpz⟩ := cons_prefix_iff.mp hz
    cases y with
    | nil => exact absurd (nil_lt_cons u x) (not_lt.mpr hxy)
    | cons v y =>
      rw [← not_lt, cons_lt_cons_iff, not_or, not_and] at hxy hyz
      obtain rfl : u = v := le_antisymm (not_lt.mp hxy.1) (not_lt.mp hyz.1)
      exact cons_prefix_cons.mpr ⟨rfl, ih hpx hpz (not_lt.mp (hxy.2 rfl)) (not_lt.mp (hyz.2 rfl))⟩

theorem le_of_isPrefix (h : p <+: x) : p ≤ x := not_lt.mp (List.IsPrefix.le h)

/-- The path is the beginning of one of the set. -/
def Reaches (s : Set (List β)) (p : List β) : Prop := ∃ x ∈ s, p <+: x

section

variable (h : Link s a b) (hq : Covers a b q)

include h hq

theorem Link.reaches_iff (hp : p <+: q) : Reaches s p ↔ p <+: a ∨ p <+: b := by
  grind [behind, isPrefix_of_between, owner, next, Covers, Reaches]

theorem Link.reaches_self_iff : Reaches s q ↔ q <+: b := by
  rw [h.reaches_iff hq prefix_rfl, or_iff_right_iff_imp]
  intro hqa
  -- the near end can only be behind the path if the link closes the circle
  rcases h.behind hq h.owner with ⟨-, haq⟩ | ⟨hqb, hba⟩
  · exact absurd haq (not_lt.mpr (le_of_isPrefix hqa))
  · exact isPrefix_of_between prefix_rfl hqa hqb.le hba

theorem Link.owner_eq_of_leaf (hd : d ∈ s) (hleaf : ∀ x ∈ s, d <+: x → x = d) (hdq : d <+: q) : a = d := by
  rcases h.behind hq hd with ⟨hda, haq⟩ | ⟨hqb, hbd⟩
  · exact hleaf a h.owner (isPrefix_of_between prefix_rfl hdq hda haq.le)
  · exact absurd (hqb.trans_le hbd) (not_lt.mpr (le_of_isPrefix hdq))

end

end Paths

/-! ### Common nodes -/

section Common

variable {β : Type*} [DecidableEq β] {p x y : List β}

/-- The longest common beginning. -/
def common : List β → List β → List β
  | u :: l, v :: l' => if u = v then u :: common l l' else []
  | _, _ => []

theorem isPrefix_common_iff : p <+: common x y ↔ p <+: x ∧ p <+: y := by
  induction p generalizing x y with
  | nil => exact iff_of_true nil_prefix ⟨ nil_prefix, nil_prefix⟩
  | cons w p ih =>
    cases x with
    | nil => simp [common]
    | cons u x =>
      cases y with
      | nil => simp [common]
      | cons v y => grind [common]

end Common

end Chain
