import Mathlib.Data.List.Sort

/-!
# Sorting without stability

A sorting function that may put elements which compare equal in any order, except that it leaves a list alone that is
in order. Seen through a key that tells more than the comparison, its result does not depend on the order of the list
exactly if elements that compare equal have equal keys.
-/

namespace Sorting

open List

variable {α κ : Type} {cmp : α → α → Ordering}

/-- No item comes before a smaller one. -/
def InOrder (cmp : α → α → Ordering) (l : List α) : Prop := l.Pairwise fun a b => (cmp a b).isLE

/-- A sorting function, which leaves a sorted list as it is. -/
structure SortFunc (cmp : α → α → Ordering) where
  sort : List α → List α
  perm : ∀ l, (sort l).Perm l
  sorted : ∀ l, InOrder cmp (sort l)
  keeps : ∀ l, InOrder cmp l → sort l = l

variable [Std.TransCmp cmp] {key : α → κ} {l l' : List α} {a b : α}

/-- Insertion sort is one. -/
def insertion (cmp : α → α → Ordering) [Std.TransCmp cmp] : SortFunc cmp where
  sort := insertionSort fun a b => (cmp a b).isLE
  perm := perm_insertionSort _
  sorted l := by
    have : Std.Total fun a b => (cmp a b).isLE = true := ⟨fun a b => by
      rw [show cmp b a = (cmp a b).swap from Std.OrientedCmp.eq_swap]
      cases cmp a b <;> decide⟩
    have : IsTrans α fun a b => (cmp a b).isLE = true := ⟨fun _ _ _ => Std.TransCmp.isLE_trans⟩
    exact pairwise_insertionSort _ l
  keeps _ := Pairwise.insertionSort_eq

theorem InOrder.swap_ties {front mid back : List α} (htie : cmp a b = .eq)
    (h : InOrder cmp (front ++ a :: (mid ++ b :: back))) : InOrder cmp (front ++ b :: (mid ++ a :: back)) := by
  classical
  -- both lists are the same once `b` stands for `a`
  let f := fun x => if x = a then b else x
  have hf : ∀ x y, (cmp (f x) (f y)).isLE = (cmp x y).isLE := fun x y => by
    have hone : ∀ x, cmp (f x) x = .eq := fun x => by
      simp only [f]
      split
      · next hx => rw [hx, Std.OrientedCmp.eq_comm, htie]
      · exact Std.ReflCmp.compare_self
    rw [Std.TransCmp.congr_left (hone x), Std.TransCmp.congr_right (hone y)]
  have hmap : ∀ l, InOrder cmp l ↔ InOrder cmp (l.map f) := fun l => by
    simp only [InOrder, pairwise_map, hf]
  have hfb : f b = b := by
    simp only [f]
    split <;> rfl
  rw [hmap] at h ⊢
  simpa [f, hfb] using h

namespace SortFunc

variable (s : SortFunc cmp)

theorem map_sort_perm (hkey : ∀ a b, key a = key b → cmp a b = .eq) (hperm : l'.Perm l)
    (hties : ∀ a ∈ l, ∀ b ∈ l, cmp a b = .eq → key a = key b) : (s.sort l').map key = (s.sort l).map key := by
  let le (k k' : κ) : Prop := ∃ a ∈ l, ∃ b ∈ l, key a = k ∧ key b = k' ∧ (cmp a b).isLE
  have hsorted : ∀ m, m.Perm l → ((s.sort m).map key).Pairwise le := fun m hm => by
    refine pairwise_map.mpr ((s.sorted m).imp_of_mem fun ha hb hab => ?_)
    exact ⟨_, ((s.perm m).trans hm).subset ha, _, ((s.perm m).trans hm).subset hb, rfl, rfl, hab⟩
  refine @Perm.eq_of_pairwise _ le _ _ ?_ (hsorted l' hperm) (hsorted l (.refl l))
    ((((s.perm l').trans hperm).trans (s.perm l).symm).map key)
  rintro _ _ - - ⟨a, ha, b, hb, rfl, rfl, hab⟩ ⟨b', -, a', -, hb', ha', hba⟩
  refine hties a ha b hb ?_
  rw [Std.TransCmp.congr_left (hkey b' b hb'), Std.TransCmp.congr_right (hkey a' a ha'),
    show cmp b a = (cmp a b).swap from Std.OrientedCmp.eq_swap] at hba
  cases hcmp : cmp a b with
  | eq => rfl
  | lt => simp [hcmp] at hba
  | gt => simp [hcmp] at hab

theorem ties_of_map_sort (h : ∀ l', l'.Perm l → (s.sort l').map key = (s.sort l).map key) (ha : a ∈ l) (hb : b ∈ l)
    (htie : cmp a b = .eq) : key a = key b := by
  -- two that compare equal can change places in the sorted list, which stays as it is then
  have hswap : ∀ {x y front mid back}, cmp x y = .eq → s.sort l = front ++ x :: (mid ++ y :: back) →
      key x = key y := by
    intro x y front mid back htie hsort
    have hsorted := (hsort ▸ s.sorted l).swap_ties htie
    have hperm : (front ++ y :: (mid ++ x :: back)).Perm l := by
      refine .trans (.append_left front ?_) (hsort ▸ s.perm l)
      exact ((perm_middle.cons y).trans (.swap x y _)).trans (perm_middle.symm.cons x)
    have hsame := h _ hperm
    rw [s.keeps _ hsorted, hsort, map_append, map_append, map_cons, map_cons, append_cancel_left_eq] at hsame
    exact (List.cons.inj hsame).1.symm
  have hmem : ∀ {x}, x ∈ l → x ∈ s.sort l := fun hx => (s.perm l).symm.subset hx
  obtain ⟨front, rest, hsort⟩ := append_of_mem (hmem ha)
  have hb' := hmem hb
  rw [hsort, mem_append, mem_cons] at hb'
  rcases hb' with hfront | rfl | hrest
  · obtain ⟨front, mid, rfl⟩ := append_of_mem hfront
    rw [append_assoc, cons_append] at hsort
    exact (hswap (Std.OrientedCmp.eq_comm.mp htie) hsort).symm
  · rfl
  · obtain ⟨mid, back, rfl⟩ := append_of_mem hrest
    exact hswap htie hsort

end SortFunc

theorem all_zip_iff {same : α → α → Bool} (hsame : ∀ a b, same a b = true ↔ key a = key b) :
    ∀ l l' : List α, (l.length = l'.length ∧ (l.zip l').all (fun p => same p.1 p.2) = true) ↔ l.map key = l'.map key
  | [], [] => by simp
  | [], b :: l' => by simp
  | a :: l, [] => by simp
  | a :: l, b :: l' => by
    rw [zip_cons_cons, all_cons, Bool.and_eq_true, hsame, length_cons, length_cons, Nat.add_right_cancel_iff,
      and_left_comm, all_zip_iff hsame l l', map_cons, map_cons, List.cons.injEq]

end Sorting
