import Mathlib.Logic.Hydra
import Mathlib.Tactic.Abel

/-!
# Tasks that wait for one another

The relation of waiting between the tasks of a system: which changes close no circle, and that without a
circle some task can go on. That tasks which start others come to an end is the hydra game: a task that goes
on is replaced by one that is nearer to its end and by the tasks it has started, which are nearer too.
-/

namespace Waiting

open Relation

variable {α : Type*} {r r' : α → α → Prop} {a b x y : α}

/-- Nobody waits for itself through others. -/
def Acyclic (r : α → α → Prop) : Prop := ∀ a, ¬TransGen r a a

theorem Acyclic.mono (h : Acyclic r) (hsub : ∀ x y, r' x y → r x y) : Acyclic r' :=
  fun a hcircle => h a (TransGen.mono hsub _ _ hcircle)

theorem transGen_edge (hedge : ∀ x y, r' x y → r x y ∨ x = a ∧ y = b) (h : TransGen r' x y) :
    TransGen r x y ∨ ReflTransGen r x a ∧ ReflTransGen r b y := by
  induction h with
  | single hxy =>
    rcases hedge _ _ hxy with hold | ⟨rfl, rfl⟩
    · exact .inl (.single hold)
    · exact .inr ⟨.refl, .refl⟩
  | tail _ hyz ih => grind

theorem Acyclic.of_edge (h : Acyclic r) (hedge : ∀ x y, r' x y → r x y ∨ x = a ∧ y = b)
    (hback : ¬ReflTransGen r b a) : Acyclic r' := by
  intro x hcircle
  rcases transGen_edge hedge hcircle with hold | ⟨hxa, hbx⟩
  · exact h x hold
  · exact hback (hbx.trans hxa)

theorem Acyclic.exists_free (h : Acyclic r) {s : Set α} [Finite s] (hs : s.Nonempty)
    (hclosed : ∀ x ∈ s, ∀ y, r x y → y ∈ s) : ∃ x ∈ s, ∀ y, ¬r x y := by
  let before : s → s → Prop := fun x y => TransGen r y.1 x.1
  have : Std.Irrefl before := ⟨fun x => h x.1⟩
  obtain ⟨a, ha⟩ := hs
  obtain ⟨x, -, hmin⟩ := (Finite.wellFounded_of_trans_of_irrefl before).has_min Set.univ ⟨⟨a, ha⟩, trivial⟩
  exact ⟨x.1, x.2, fun y hxy => hmin ⟨y, hclosed x.1 x.2 y hxy⟩ trivial (.single hxy)⟩

theorem cutExpand_set {tasks started : List α} {i : Nat} (hx : tasks[i]? = some x) (hy : r y x)
    (hstarted : ∀ z ∈ started, r z x) : CutExpand r (tasks.set i y ++ started : List α) (tasks : List α) := by
  obtain ⟨hi, rfl⟩ := List.getElem?_eq_some_iff.mp hx
  refine ⟨(y :: started : List α), tasks[i], ?_, ?_⟩
  · intro z hz
    rcases List.mem_cons.mp (Multiset.mem_coe.mp hz) with rfl | hz
    · exact hy
    · exact hstarted z hz
  · have hset : tasks.set i y = tasks.take i ++ y :: tasks.drop (i + 1) := by
      rw [List.set_eq_take_append_cons_drop, if_pos hi]
    have hsplit : tasks.take i ++ tasks[i] :: tasks.drop (i + 1) = tasks := by
      rw [List.getElem_cons_drop, List.take_append_drop]
    rw [hset]
    nth_rewrite 4 [← hsplit]
    simp only [← Multiset.coe_add, ← Multiset.cons_coe, ← Multiset.singleton_add]
    abel

theorem map_modify {β : Type*} {f : α → α} {g : α → β} {tasks : List α} {i : Nat} (hx : tasks[i]? = some x) :
    (tasks.modify i f).map g = (tasks.map g).set i (g (f x)) := by
  apply List.ext_getElem?
  intro j
  by_cases hij : i = j
  · subst hij
    obtain ⟨hi, rfl⟩ := List.getElem?_eq_some_iff.mp hx
    simp [hi]
  · simp [hij]

end Waiting
