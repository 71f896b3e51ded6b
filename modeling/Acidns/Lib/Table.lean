import Mathlib.Data.List.AList
import Mathlib.Algebra.Ring.Nat

/-!
# Tables

Finite maps as association lists with distinct keys. A loop over a map may visit the entries in any order.
-/

/-- A finite map from `κ` to `α`. -/
abbrev Table (κ α : Type) := AList fun _ : κ => α

namespace Table

open List

variable {κ α β : Type}

/-- How many entries there are. -/
def size (t : Table κ α) : Nat := t.entries.length

/-- The entries that pass the test. -/
def filter (p : κ → α → Bool) (t : Table κ α) : Table κ α :=
  ⟨t.entries.filter fun e => p e.1 e.2, t.nodupKeys.sublist filter_sublist⟩

/-- The table with its values changed. -/
def mapValues (f : α → β) (t : Table κ α) : Table κ β where
  entries := t.entries.map fun e => ⟨e.1, f e.2⟩
  nodupKeys := by
    have hkeys : (t.entries.map fun e => (⟨e.1, f e.2⟩ : Σ _ : κ, β)).keys = t.entries.keys := by
      rw [List.keys, map_map]
      rfl
    rw [List.NodupKeys, hkeys]
    exact t.nodupKeys

/-- The order in which one loop visits the entries of a map. -/
structure Order (κ α : Type) where
  visit : List (Σ _ : κ, α) → List (Σ _ : κ, α)
  perm : ∀ entries, (visit entries).Perm entries

/-- The entries as they are stored. -/
def Order.stored : Order κ α := ⟨id, fun _ => .refl _⟩

/-- The key of the first entry with the least value of `f`. -/
def leastKey (f : α → Int) (entries : List (Σ _ : κ, α)) : Option κ :=
  (entries.foldl (fun best e =>
    match best with
    | none => some e
    | some b => if f e.2 < f b.2 then some e else some b) none).map (·.1)

variable {p : κ → α → Bool} {t : Table κ α} {k k' : κ} {a : α} {f g : α → β}

theorem mem_entries_filter :
    ⟨k, a⟩ ∈ (filter p t).entries ↔ ⟨k, a⟩ ∈ t.entries ∧ p k a :=
  mem_filter

theorem mem_entries_mapValues {b : β} :
    ⟨k, b⟩ ∈ (mapValues f t).entries ↔ ∃ a, ⟨k, a⟩ ∈ t.entries ∧ f a = b := by
  grind [mapValues]

variable [DecidableEq κ]

theorem mem_of_lookup (h : AList.lookup k t = some a) : k ∈ t :=
  AList.lookup_isSome.mp (by rw [h]; rfl)

theorem lookup_filter_eq_some :
    AList.lookup k (filter p t) = some a ↔ AList.lookup k t = some a ∧ p k a := by
  rw [← Option.mem_def, ← Option.mem_def, AList.mem_lookup_iff, AList.mem_lookup_iff]
  exact mem_entries_filter

theorem lookup_mapValues :
    AList.lookup k (mapValues f t) = (AList.lookup k t).map f := by
  apply Option.ext
  intro a
  rw [Option.map_eq_some_iff, ← Option.mem_def, AList.mem_lookup_iff, mem_entries_mapValues]
  simp only [← AList.mem_lookup_iff, Option.mem_def]

theorem filter_insert_empty (h : p k a = false) :
    filter p (AList.insert k a ∅) = ∅ := by
  apply AList.ext
  simp [filter, AList.insert, h]

theorem lookup_erase_eq :
    AList.lookup k (AList.erase k' t) = if k = k' then none else AList.lookup k t := by
  grind [AList.lookup_erase, AList.lookup_erase_ne]

theorem size_erase (t : Table κ α) (k : κ) : size (AList.erase k t) + (if k ∈ t then 1 else 0) = size t := by
  have hkeys : ∀ s : Table κ α, size s = s.keys.length := fun s => (length_map _).symm
  rw [hkeys, hkeys, AList.keys_erase]
  split
  · next hk => exact length_erase_add_one (AList.mem_keys.mp hk)
  · next hk => rw [erase_of_not_mem (mt AList.mem_keys.mpr hk), Nat.add_zero]

theorem lookup_of_lookup_erase (h : AList.lookup k (AList.erase k' t) = some a) :
    AList.lookup k t = some a := by
  rw [lookup_erase_eq] at h
  split at h
  · cases h
  · exact h

theorem lookup_insert_eq :
    AList.lookup k (AList.insert k' a t) = if k = k' then some a else AList.lookup k t := by
  grind [AList.lookup_insert, AList.lookup_insert_ne]

theorem mapValues_congr (h : ∀ k a, AList.lookup k t = some a → f a = g a) :
    mapValues f t = mapValues g t := by
  apply AList.ext
  apply map_congr_left
  intro e he
  rw [h e.1 e.2 (AList.mem_lookup_iff.mpr he)]

theorem mapValues_erase (f : α → β) (t : Table κ α) (k : κ) : mapValues f (AList.erase k t) = AList.erase k (mapValues f t) := by
  apply AList.ext
  change (List.kerase k t.entries).map _ = List.kerase k (t.entries.map _)
  induction t.entries with
  | nil => rfl
  | cons e entries ih =>
    by_cases hk : k = e.1
    · rw [kerase_cons_eq hk]
      exact (kerase_cons_eq (s := (⟨e.1, f e.2⟩ : Σ _ : κ, β)) hk).symm
    · rw [kerase_cons_ne hk, map_cons, ih]
      exact (kerase_cons_ne (s := (⟨e.1, f e.2⟩ : Σ _ : κ, β)) hk).symm

theorem mapValues_insert (f : α → β) (t : Table κ α) (k : κ) (a : α) :
    mapValues f (AList.insert k a t) = AList.insert k (f a) (mapValues f t) := by
  apply AList.ext
  exact congrArg (List.cons _) (congrArg AList.entries (mapValues_erase f t k))

theorem insert_congr {t' : Table κ α} (h : AList.erase k t = AList.erase k t') (a : α) :
    AList.insert k a t = AList.insert k a t' := by
  apply AList.ext
  exact congrArg (List.cons _) (congrArg AList.entries h)

theorem erase_mapValues_congr (h : ∀ k' a, AList.lookup k' t = some a → k' ≠ k → f a = g a) :
    AList.erase k (mapValues f t) = AList.erase k (mapValues g t) := by
  rw [← mapValues_erase, ← mapValues_erase]
  apply mapValues_congr
  intro k' a hlookup
  rw [lookup_erase_eq] at hlookup
  split at hlookup
  · cases hlookup
  · next hne => exact h k' a hlookup hne

end Table
