import Mathlib.Data.List.Basic
import Mathlib.Order.Nat

/-!
# Stores and slices

A store holds objects by address and hands out new addresses in order. A slice shows the first cells of an
array that other slices may share: `append` writes behind them in the same array while there is room and else
in a new one, and a filter in place reads and writes one array.
-/

structure Store (α : Type) where
  next : Nat
  get : Nat → α

namespace Store

open List

variable {α : Type} {s t u : Store α} {p q : Nat} {a : α}

/-- A new object at the next address. -/
def alloc (s : Store α) (a : α) : Store α := ⟨s.next + 1, Function.update s.get s.next a⟩

/-- Overwrites the object at an address. -/
def write (s : Store α) (p : Nat) (a : α) : Store α := { s with get := Function.update s.get p a }

@[simp] theorem get_alloc_next (s : Store α) (a : α) : (s.alloc a).get s.next = a := Function.update_self ..

theorem get_alloc_of_lt (h : p < s.next) : (s.alloc a).get p = s.get p := Function.update_of_ne h.ne ..

@[simp] theorem get_write_self (s : Store α) (p : Nat) (a : α) : (s.write p a).get p = a := Function.update_self ..

theorem get_write_of_ne (h : q ≠ p) : (s.write p a).get q = s.get q := Function.update_of_ne h ..

theorem write_get (s : Store α) (p : Nat) : s.write p (s.get p) = s := by
  rw [write, Function.update_eq_self]

/-- The objects of `s` are in `t` as they were. -/
structure Extends (s t : Store α) : Prop where
  next_le : s.next ≤ t.next
  get_eq : ∀ p < s.next, t.get p = s.get p

theorem Extends.refl (s : Store α) : s.Extends s := ⟨Nat.le_refl _, fun _ _ => rfl⟩

theorem Extends.trans (hst : s.Extends t) (htu : t.Extends u) : s.Extends u where
  next_le := hst.next_le.trans htu.next_le
  get_eq p hp := (htu.get_eq p (hp.trans_le hst.next_le)).trans (hst.get_eq p hp)

theorem Extends.alloc (h : s.Extends t) (a : α) : s.Extends (t.alloc a) where
  next_le := h.next_le.trans (Nat.le_succ _)
  get_eq p hp := (get_alloc_of_lt (hp.trans_le h.next_le)).trans (h.get_eq p hp)

theorem Extends.write (h : s.Extends t) (hp : s.next ≤ p) (a : α) : s.Extends (t.write p a) where
  next_le := h.next_le
  get_eq q hq := (get_write_of_ne (hq.trans_le hp).ne).trans (h.get_eq q hq)

/-! ### Slices -/

/-- An array: the cells in use and its capacity. -/
structure Backing (α : Type) where
  cells : List α
  cap : Nat

/-- The first cells of the array at an address. -/
structure Slice where
  addr : Nat
  len : Nat

/-- What a slice shows. -/
def read (s : Store (Backing α)) (x : Slice) : List α := (s.get x.addr).cells.take x.len

/-- The slice lies in an array of the store, within its cells and capacity. -/
structure Valid (s : Store (Backing α)) (x : Slice) : Prop where
  addr_lt : x.addr < s.next
  len_le : x.len ≤ (s.get x.addr).cells.length
  cells_le : (s.get x.addr).cells.length ≤ (s.get x.addr).cap

/-- What a new array gets beyond the cells it needs, by the capacity of the old one and that number. -/
abbrev Slack := Nat → Nat → Nat

/-- Writes into the array if there is room behind the slice, otherwise into a new one. -/
def append (slack : Slack) (s : Store (Backing α)) : Option Slice → α → Store (Backing α) × Slice
  | none, a => (s.alloc ⟨[a], 1 + slack 0 1⟩, ⟨s.next, 1⟩)
  | some x, a =>
    let b := s.get x.addr
    if x.len < b.cap then
      (s.write x.addr { b with cells := b.cells.take x.len ++ a :: b.cells.drop (x.len + 1) }, ⟨x.addr, x.len + 1⟩)
    else (s.alloc ⟨s.read x ++ [a], x.len + 1 + slack b.cap (x.len + 1)⟩, ⟨s.next, x.len + 1⟩)

/-- One round: the cell is read from the array as earlier rounds left it. The flag tells whether one was left out. -/
def filterStep (slack : Slack) (keep : α → Bool) (x : Slice) (st : Store (Backing α) × Slice × Bool) (i : Nat) :
    Store (Backing α) × Slice × Bool :=
  match (st.1.get x.addr).cells[i]? with
  | none => st
  | some a =>
    if keep a then
      let (s, kept) := append slack st.1 (some st.2.1) a
      (s, kept, st.2.2)
    else (st.1, st.2.1, true)

/-- The cells of `x` that are kept move to the front of its array. -/
def filterInPlace (slack : Slack) (keep : α → Bool) (s : Store (Backing α)) (x : Slice) :
    Store (Backing α) × Slice × Bool :=
  (List.range x.len).foldl (filterStep slack keep x) (s, ⟨x.addr, 0⟩, false)

/-- A new array, filled by appending. -/
def fill (slack : Slack) (s : Store (Backing α)) (cap : Nat) (as : List α) : Store (Backing α) × Slice :=
  as.foldl (fun (s, x) a => append slack s (some x) a) (s.alloc ⟨[], cap⟩, ⟨s.next, 0⟩)

/-- No array was written to but that of `x` and new ones. -/
structure Touches (s : Store (Backing α)) (x : Option Slice) (t : Store (Backing α)) : Prop where
  next_le : s.next ≤ t.next
  frame : ∀ p < s.next, (∀ x₀ ∈ x, p ≠ x₀.addr) → t.get p = s.get p

/-- `y` shows `as`, in the array of `x` or in a new one. -/
structure Yields (s : Store (Backing α)) (x : Option Slice) (t : Store (Backing α)) (y : Slice) (as : List α) : Prop
    extends Touches s x t where
  valid : t.Valid y
  read_eq : t.read y = as
  place : s.next ≤ y.addr ∨ ∃ x₀ ∈ x, y.addr = x₀.addr

section

variable {s t u : Store (Backing α)} {x y : Slice} {o : Option Slice} {as bs : List α} {slack : Slack}

theorem read_congr (h : t.get x.addr = s.get x.addr) : t.read x = s.read x := by
  rw [read, read, h]

theorem Valid.length_read (h : s.Valid x) : (s.read x).length = x.len :=
  length_take_of_le h.len_le

theorem Valid.congr (h : s.Valid x) (hnext : s.next ≤ t.next) (hget : t.get x.addr = s.get x.addr) : t.Valid x where
  addr_lt := h.addr_lt.trans_le hnext
  len_le := by rw [hget]; exact h.len_le
  cells_le := by rw [hget]; exact h.cells_le

theorem Extends.valid (h : s.Extends t) (hx : s.Valid x) : t.Valid x := hx.congr h.next_le (h.get_eq _ hx.addr_lt)

theorem Extends.read (h : s.Extends t) (hx : s.Valid x) : t.read x = s.read x := read_congr (h.get_eq _ hx.addr_lt)

theorem Yields.trans (hy : s.Yields o t y as) (hz : t.Yields (some y) u x bs) : s.Yields o u x bs where
  valid := hz.valid
  read_eq := hz.read_eq
  next_le := hy.next_le.trans hz.next_le
  place := by
    rcases hz.place with hnew | ⟨y', hy', haddr⟩
    · exact .inl (hy.next_le.trans hnew)
    · cases hy'
      rw [haddr]
      exact hy.place
  frame p hp hne := by
    rw [hz.frame p (hp.trans_le hy.next_le) ?_, hy.frame p hp hne]
    rintro y' hy' rfl
    cases hy'
    rcases hy.place with hnew | ⟨x₀, hx₀, haddr⟩
    · exact absurd hp (Nat.not_lt.mpr hnew)
    · exact hne x₀ hx₀ haddr

theorem Yields.of_none (h : s.Yields none t y as) (o : Option Slice) : s.Yields o t y as where
  next_le := h.next_le
  frame p hp _ := h.frame p hp (fun x₀ hx₀ => by cases hx₀)
  valid := h.valid
  read_eq := h.read_eq
  place := by
    rcases h.place with hnew | ⟨x₀, hx₀, -⟩
    · exact .inl hnew
    · cases hx₀

theorem yields_alloc (s : Store (Backing α)) (o : Option Slice) {as : List α} {cap : Nat} (h : as.length ≤ cap) :
    s.Yields o (s.alloc ⟨as, cap⟩) ⟨s.next, as.length⟩ as where
  valid := ⟨Nat.lt_succ_self _, by simp, by simpa using h⟩
  read_eq := by simp [read]
  next_le := Nat.le_succ _
  place := .inl (Nat.le_refl _)
  frame p hp _ := get_alloc_of_lt hp

theorem yields_append_none (slack : Slack) (s : Store (Backing α)) (a : α) :
    s.Yields none (append slack s none a).1 (append slack s none a).2 [a] :=
  yields_alloc s none (Nat.le_add_right _ _)

theorem yields_append (slack : Slack) (hx : s.Valid x) (a : α) :
    s.Yields (some x) (append slack s (some x) a).1 (append slack s (some x) a).2 (s.read x ++ [a]) := by
  have hlen := hx.length_read
  have hle := hx.len_le
  have hcap := hx.cells_le
  unfold append
  simp only
  split
  · next hroom =>
    refine ⟨⟨Nat.le_refl _, fun p _ hne => get_write_of_ne (hne x rfl)⟩, ⟨hx.addr_lt, ?_, ?_⟩, ?_, .inr ⟨x, rfl, rfl⟩⟩
    · simp only [get_write_self, length_append, length_take, length_cons]
      omega
    · simp only [get_write_self, length_append, length_take, length_cons, length_drop]
      omega
    · simp [read, take_append, take_of_length_le, *]
  · have hgrown : (s.read x ++ [a]).length = x.len + 1 := by rw [length_append, hlen, length_singleton]
    have hnew := yields_alloc s (some x) (hgrown.trans_le (Nat.le_add_right _ (slack (s.get x.addr).cap (x.len + 1))))
    rwa [hgrown] at hnew

theorem yields_fill (slack : Slack) (s : Store (Backing α)) (cap : Nat) (as : List α) :
    s.Yields none (fill slack s cap as).1 (fill slack s cap as).2 as := by
  have hloop : ∀ (bs : List α) (st : Store (Backing α) × Slice) (done : List α), s.Yields none st.1 st.2 done →
      s.Yields none (bs.foldl (fun (s, x) a => append slack s (some x) a) st).1
        (bs.foldl (fun (s, x) a => append slack s (some x) a) st).2 (done ++ bs) := by
    intro bs
    induction bs with
    | nil =>
      intro st done h
      rwa [append_nil]
    | cons b bs ih =>
      intro st done h
      have hstep := h.trans (yields_append slack h.valid b)
      rw [h.read_eq] at hstep
      rw [append_cons]
      exact ih _ _ hstep
  exact hloop as _ [] (yields_alloc s none (Nat.zero_le _))

/-- After `i` rounds the front of the array holds what was kept, and the cells still to come are as they were. -/
structure Filtering (s : Store (Backing α)) (keep : α → Bool) (x : Slice) (i : Nat) (st : Store (Backing α) × Slice × Bool) :
    Prop where
  next_eq : st.1.next = s.next
  frame : ∀ p, p ≠ x.addr → st.1.get p = s.get p
  cap_eq : (st.1.get x.addr).cap = (s.get x.addr).cap
  length_eq : (st.1.get x.addr).cells.length = (s.get x.addr).cells.length
  addr_eq : st.2.1.addr = x.addr
  len_le : st.2.1.len ≤ i
  read_eq : st.1.read st.2.1 = ((s.get x.addr).cells.take i).filter keep
  rest_eq : ∀ j, i ≤ j → (st.1.get x.addr).cells[j]? = (s.get x.addr).cells[j]?
  flag_eq : st.2.2 = ((s.get x.addr).cells.take i).any fun a => !keep a

/-- One turn of the filter loop, which overwrites the array it reads. -/
theorem Filtering.step {keep : α → Bool} {i : Nat} {st : Store (Backing α) × Slice × Bool} (hx : s.Valid x) (hi : i < x.len)
    (h : s.Filtering keep x i st) : s.Filtering keep x (i + 1) (filterStep slack keep x st i) := by
  have hlt : i < (s.get x.addr).cells.length := hi.trans_le hx.len_le
  have hcell : (st.1.get x.addr).cells[i]? = some (s.get x.addr).cells[i] := by
    rw [h.rest_eq i (Nat.le_refl i), List.getElem?_eq_getElem hlt]
  obtain ⟨t, ⟨addr, len⟩, flag⟩ := st
  obtain rfl : addr = x.addr := h.addr_eq
  have hlen := h.len_le
  have hread := h.read_eq
  simp only [filterStep, hcell]
  simp only at hlen hread
  have htake : (s.get x.addr).cells.take (i + 1) = (s.get x.addr).cells.take i ++ [(s.get x.addr).cells[i]] :=
    (take_append_getElem hlt).symm
  cases hkeep : keep (s.get x.addr).cells[i] with
  | false =>
    rw [if_neg Bool.false_ne_true]
    refine { h with len_le := Nat.le_succ_of_le hlen, read_eq := ?_, rest_eq := ?_, flag_eq := ?_ }
    · rw [hread, htake, filter_append, filter_singleton, hkeep]
      simp
    · exact fun j hj => h.rest_eq j (Nat.le_of_succ_le hj)
    · simp only [htake, any_append, any_cons, hkeep, Bool.not_false, Bool.true_or, Bool.or_true]
  | true =>
    -- there is room: the cell that is written has had its turn
    have hroom : len < (t.get x.addr).cap := by
      rw [h.cap_eq]
      exact (hlen.trans_lt hlt).trans_le hx.cells_le
    have hlent : (t.get x.addr).cells.length = (s.get x.addr).cells.length := h.length_eq
    have hval : t.Valid ⟨x.addr, len⟩ := by
      refine ⟨hx.addr_lt.trans_eq h.next_eq.symm, ?_, ?_⟩
      · rw [hlent]
        exact (hlen.trans_lt hlt).le
      · rw [hlent, h.cap_eq]
        exact hx.cells_le
    have hyields := yields_append slack hval (s.get x.addr).cells[i]
    simp only [append, hroom, if_true] at hyields ⊢
    refine ⟨h.next_eq, ?_, ?_, ?_, rfl, Nat.succ_le_succ hlen, ?_, ?_, ?_⟩
    · intro p hp
      rw [get_write_of_ne hp]
      exact h.frame p hp
    · rw [get_write_self]
      exact h.cap_eq
    · simp only [get_write_self, length_append, length_take, length_cons, length_drop, hlent]
      omega
    · rw [hyields.read_eq, hread, htake, filter_append, filter_singleton, hkeep]
      rfl
    · intro j hj
      rw [← h.rest_eq j (Nat.le_of_succ_le hj), get_write_self, List.getElem?_append_right (by simp; omega),
        length_take, hlent, Nat.min_eq_left (hlen.trans hlt.le)]
      obtain ⟨k, rfl⟩ : ∃ k, j = len + 1 + k := ⟨j - (len + 1), by omega⟩
      rw [show len + 1 + k - len = k + 1 by omega, List.getElem?_cons_succ, List.getElem?_drop]
    · simp only [htake, any_append, any_cons, any_nil, hkeep, Bool.not_true, Bool.or_false]
      exact h.flag_eq

section

variable (slack : Slack) (keep : α → Bool) (hx : s.Valid x)

include hx

theorem filtering_filterInPlace : s.Filtering keep x x.len (filterInPlace slack keep s x) := by
  have hloop : ∀ i ≤ x.len, s.Filtering keep x i ((List.range i).foldl (filterStep slack keep x) (s, ⟨x.addr, 0⟩, false)) := by
    intro i hi
    induction i with
    | zero => exact ⟨rfl, fun _ _ => rfl, rfl, rfl, rfl, Nat.le_refl 0, rfl, fun _ _ => rfl, rfl⟩
    | succ i ih =>
      rw [range_succ, foldl_append]
      exact (ih (Nat.le_of_succ_le hi)).step hx hi
  exact hloop x.len (Nat.le_refl _)

theorem yields_filterInPlace :
    s.Yields (some x) (filterInPlace slack keep s x).1 (filterInPlace slack keep s x).2.1 ((s.read x).filter keep) := by
  have h := filtering_filterInPlace slack keep hx
  refine ⟨⟨h.next_eq.ge, fun p _ hne => h.frame p (hne x rfl)⟩, ⟨?_, ?_, ?_⟩, h.read_eq, .inr ⟨x, rfl, h.addr_eq⟩⟩
  · rw [h.addr_eq, h.next_eq]
    exact hx.addr_lt
  · rw [h.addr_eq, h.length_eq]
    exact h.len_le.trans hx.len_le
  · rw [h.addr_eq, h.length_eq, h.cap_eq]
    exact hx.cells_le

theorem flag_filterInPlace : (filterInPlace slack keep s x).2.2 = (s.read x).any fun a => !keep a :=
  (filtering_filterInPlace slack keep hx).flag_eq

theorem filterInPlace_eq_self (h : (filterInPlace slack keep s x).2.2 = false) :
    (filterInPlace slack keep s x).2.1 = x := by
  have hf := yields_filterInPlace slack keep hx
  have hflag := flag_filterInPlace slack keep hx
  rw [h, eq_comm, any_eq_false] at hflag
  have hlen := hf.valid.length_read
  rw [hf.read_eq, filter_eq_self.mpr (by simpa using hflag), hx.length_read] at hlen
  have haddr := (filtering_filterInPlace slack keep hx).addr_eq
  cases hy : (filterInPlace slack keep s x).2.1
  cases x
  simp_all

end
end

end Store
