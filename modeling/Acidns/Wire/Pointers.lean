import Mathlib.Logic.Relation
import Acidns.Wire.Record

/-!
# Compression pointers

`wirebb/name.go` and `wirebb/wire.go`. The decoder of names ends: each round makes the name longer or follows one of
the pointers that are left to it. The packer keeps a table of the suffixes it has written; in every state it comes
to, also while the length of a record is still to be filled in, each entry leads to its suffix.
-/

namespace Acidns

open List

open Octets (At bigEndian)
open Labels (Spells)

/-! ### The decoder ends -/

section Decoding

variable {maxHops fuel fuel' cur hops total : Nat} {msg out : Bytes} {nextOff : Option Nat}

end Decoding

/-! ### The packer's table -/

/-- A packer at work, with the place of a length that is not yet filled in and the names written so far, each with the
offset it starts at. -/
structure Packing where
  packer : Packer
  rdlenAt : Option Nat
  written : List (Nat × Name)

namespace Packing

/-- A packer over bytes already written. -/
def start (buf : Bytes) : Packing := ⟨⟨buf, []⟩, none, []⟩

/-- The offsets at which compressed names were written. -/
def note (p : Packer) (op : PackOp) (written : List (Nat × Name)) : List (Nat × Name) :=
  match op.compressed with
  | some n => (p.len, n) :: written
  | none => written

/-- A call on the packer, or one of the two halves of the back-fill in `packRecord`. -/
inductive Step : Packing → Packing → Prop
  | call {p : Packer} {rdlenAt : Option Nat} {written : List (Nat × Name)} (op : PackOp) :
      Step ⟨p, rdlenAt, written⟩ ⟨p.apply op, rdlenAt, note p op written⟩
  | placeholder {p : Packer} {written : List (Nat × Name)} :
      Step ⟨p, none, written⟩ ⟨p.uint16 0, some p.len, written⟩
  | fill {p : Packer} {rdlenAt : Nat} {written : List (Nat × Name)} (hfit : p.len - (rdlenAt + 2) ≤ 0xffff) :
      Step ⟨p, some rdlenAt, written⟩ ⟨p.patch16 rdlenAt (p.len - (rdlenAt + 2)), none, written⟩

/-- Every entry of the table leads to its suffix, and every name resolves from where it starts. -/
def Good (p : Packer) (written : List (Nat × Name)) : Prop :=
  (∃ lay, Tracks p lay) ∧ ∀ e ∈ written, ∃ hops next, Spells p.buf e.1 e.2.labels hops next

theorem Good.apply {p : Packer} {written : List (Nat × Name)} (h : Good p written) (op : PackOp) :
    Good (p.apply op) (note p op written) := by
  obtain ⟨⟨lay, htracks⟩, hwritten⟩ := h
  cases hop : op.compressed with
  | none =>
    rw [Packer.apply_plain hop, note, hop]
    refine ⟨⟨_, htracks.raw op.bytes⟩, fun e he => ?_⟩
    obtain ⟨hops, next, hspells⟩ := hwritten e he
    exact ⟨hops, next, hspells.mono (prefix_append _ _)⟩
  | some n =>
    obtain rfl := PackOp.eq_name_of_compressed hop
    have hemit := nameEmitted_name htracks n
    refine ⟨⟨_, hemit.tracks htracks⟩, forall_mem_cons.mpr ⟨⟨_, _, hemit.spells⟩, fun e he => ?_⟩⟩
    obtain ⟨hops, next, hspells⟩ := hwritten e he
    exact ⟨hops, next, hspells.mono hemit.extends_⟩

/-- The invariant. While a length is open, all is well whatever the two bytes kept for it hold. -/
inductive Sound : Packing → Prop
  | closed {p : Packer} {written : List (Nat × Name)} (h : Good p written) : Sound ⟨p, none, written⟩
  | opened {front back : Bytes} {comp : List (Bytes × Nat)} {old : Nat} {written : List (Nat × Name)}
      (h : ∀ v, Good ⟨front ++ bigEndian 2 v ++ back, comp⟩ written) :
      Sound ⟨⟨front ++ bigEndian 2 old ++ back, comp⟩, some front.length, written⟩

theorem Sound.good {s : Packing} (h : Sound s) : Good s.packer s.written := by
  cases h with
  | closed h => exact h
  | opened h => exact h _

theorem apply_opened (front back : Bytes) (comp : List (Bytes × Nat)) (op : PackOp) :
    ∃ out comp', ∀ v, (⟨front ++ bigEndian 2 v ++ back, comp⟩ : Packer).apply op =
      ⟨front ++ bigEndian 2 v ++ (back ++ out), comp'⟩ := by
  obtain ⟨out, comp', hzero, -⟩ :=
    @Packer.run_congr ⟨front ++ bigEndian 2 0 ++ back, comp⟩ [op] _ rfl rfl
  refine ⟨out, comp', fun v => ?_⟩
  obtain ⟨out', comp'', hzero', hv⟩ := @Packer.run_congr ⟨front ++ bigEndian 2 0 ++ back, comp⟩ [op]
    ⟨front ++ bigEndian 2 v ++ back, comp⟩ (by simp) rfl
  rw [hzero, Packer.mk.injEq, append_cancel_left_eq] at hzero'
  obtain ⟨rfl, rfl⟩ := hzero'
  rw [← append_assoc]
  exact hv

theorem Sound.step {s s' : Packing} (h : Sound s) (hstep : Step s s') : Sound s' := by
  cases hstep with
  | call op =>
    cases h with
    | closed h => exact .closed (h.apply op)
    | @opened front back comp old _ h =>
      obtain ⟨out, comp', hout⟩ := apply_opened front back comp op
      rw [hout]
      refine .opened fun v => ?_
      have hgood := (h v).apply op
      rw [hout] at hgood
      simpa [note, Packer.len] using hgood
  | @placeholder p written =>
    cases h with
    | closed h =>
      have hbuf : p.uint16 0 = ⟨p.buf ++ bigEndian 2 0 ++ [], p.comp⟩ := by simp [Packer.uint16, Packer.raw]
      rw [hbuf]
      refine .opened fun v => ?_
      rw [append_nil]
      exact h.apply (.raw (bigEndian 2 v))
  | fill hfit =>
    cases h with
    | opened h =>
      rw [Packer.patch16_append]
      exact .closed (h _)

theorem sound_of_reachable {buf : Bytes} {s : Packing} (h : Relation.ReflTransGen Step (start buf) s) :
    Sound s := by
  induction h with
  | refl => exact .closed ⟨⟨⟨buf.length, []⟩, rfl, fun _ => .inl ⟨rfl, rfl⟩⟩, forall_mem_nil _⟩
  | tail _ hstep ih => exact ih.step hstep

/-- **The compression table.** In every state of a packer the entries of its table lie within the reach of pointers and
lead to their suffix, and every name it has written resolves from its start. A name ends in the root or in a pointer
to somewhere before that pointer. -/
theorem table_resolves {buf : Bytes} {s : Packing} (h : Relation.ReflTransGen Step (start buf) s) :
    (∀ suffix ptr, s.packer.comp.lookup suffix = some ptr → ptr < 2 ^ 14 ∧ ptr < s.packer.buf.length ∧
      ∃ ls hops next, suffix = Labels.encode ls ∧ Spells s.packer.buf ptr ls hops next) ∧
    (∀ e ∈ s.written, ∃ hops next, Spells s.packer.buf e.1 e.2.labels hops next) ∧
    ∀ n, ∃ out, (s.packer.name n).buf = s.packer.buf ++ out ∧ (out = Labels.encode n.labels ∨
      ∃ front target, out = Labels.body front ++ Labels.reference target ∧
        target < s.packer.buf.length + (Labels.body front).length) := by
  obtain ⟨⟨lay, htracks⟩, hwritten⟩ := (sound_of_reachable h).good
  refine ⟨fun suffix ptr hlookup => ?_, hwritten, fun n => ?_⟩
  · rcases htracks.agree suffix with ⟨hnone, -⟩ | ⟨ptr', depth, hptr, -, ls, next, hsuffix, hfit, hspells⟩
    · rw [hnone] at hlookup
      cases hlookup
    · obtain rfl : ptr' = ptr := Option.some.inj (hptr.symm.trans hlookup)
      exact ⟨hfit, Nat.lt_of_lt_of_le hspells.lt_next hspells.next_le, ls, depth, next, hsuffix, hspells⟩
  · have hemit := nameEmitted_name htracks n
    obtain ⟨out, hout⟩ := hemit.extends_
    have hspells := hemit.spells
    rw [← hout, length_append] at hspells
    have hwhole : ∀ {bs : Bytes}, At (s.packer.buf ++ out) s.packer.buf.length bs →
        s.packer.buf.length + out.length = s.packer.buf.length + bs.length → out = bs := by
      intro bs hat hlen
      rw [At, drop_left] at hat
      exact (hat.eq_of_length (by omega)).symm
    refine ⟨out, hout.symm, ?_⟩
    rcases hspells.inline with ⟨-, hat, hnext⟩ | ⟨-, front, target, -, -, hback, hat, hnext⟩
    · exact .inl (hwhole hat hnext)
    · exact .inr ⟨front, target, hwhole hat hnext, hback⟩

def labelA : Name := Name.Short.a

/-- The same name twice: the second is a pointer to the first. -/
theorem labelA_twice_resolves : ((Packer.new.name labelA).name labelA).buf = [1, 0x61, 0, 0xc0, 0] ∧
    ∃ hops next, Spells ((Packer.new.name labelA).name labelA).buf 3 labelA.labels hops next := by
  have hreach : Relation.ReflTransGen Step (start [])
      ⟨(Packer.new.name labelA).name labelA, none, [(3, labelA), (0, labelA)]⟩ :=
    .tail (.tail .refl (.call (.name labelA))) (.call (.name labelA))
  exact ⟨by decide, (table_resolves hreach).2.1 _ (.head _)⟩

end Packing

/-! ### Names that share a suffix -/

namespace Layout

variable {lay : Layout} {l : Bytes} {ls s : List Bytes}

end Layout

end Acidns
