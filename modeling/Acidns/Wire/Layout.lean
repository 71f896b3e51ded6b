import Acidns.Wire.Packer

/-!
# The layout of packed data

A `Pack` method is a list of calls on the packer. This module says what such a list leaves in the buffer: every integer and string stands where it was written, and every name is spelled from the offset at which it was emitted.

`Layout` follows the packer without its bytes. It tracks how long the buffer is and, for each remembered suffix, how many pointers a decoder follows from the place where that suffix was emitted. So the number of pointers behind each name of a message is a function of the message.
-/

namespace Acidns

open List

open Octets (At bigEndian)
open Labels (IsLabel Spells)

/-- One call on the packer. -/
inductive PackOp where
  | uint8 (v : UInt8)
  | uint16 (v : UInt16)
  | uint32 (v : UInt32)
  | raw (bs : Bytes)
  | charString (s : Bytes)
  | name (n : Name)
  | nameUncompressed (n : Name)

namespace Packer

def apply (p : Packer) : PackOp → Packer
  | .uint8 v => p.uint8 v
  | .uint16 v => p.uint16 v
  | .uint32 v => p.uint32 v
  | .raw bs => p.raw bs
  | .charString s => p.charString s
  | .name n => p.name n
  | .nameUncompressed n => p.nameUncompressed n

/-- A sequence of calls on the packer. -/
def run (p : Packer) (ops : List PackOp) : Packer := ops.foldl apply p

end Packer

/-- The bytes of a call that does not compress; a name counts with its uncompressed form. -/
def PackOp.bytes : PackOp → Bytes
  | .uint8 v => [v]
  | .uint16 v => bigEndian 2 v.toNat
  | .uint32 v => bigEndian 4 v.toNat
  | .raw bs => bs
  | .charString s => if s.length > 255 then [] else UInt8.ofNat s.length :: s
  | .name n => n.appendWire []
  | .nameUncompressed n => n.appendWire []

/-- The name that the call may compress. -/
def PackOp.compressed : PackOp → Option Name
  | .name n => some n
  | _ => none

variable {op : PackOp} {buf buf' suffix : Bytes}

theorem PackOp.eq_name_of_compressed {n : Name} (h : op.compressed = some n) : op = .name n := by
  cases op with
  | name n' => exact congrArg PackOp.name (Option.some.inj h)
  | _ => cases h

theorem Packer.apply_plain (hop : op.compressed = none) (p : Packer) :
    p.apply op = p.raw op.bytes := by
  cases op with
  | name n => cases hop
  | charString s =>
    simp only [apply, charString, PackOp.bytes]
    split
    · simp [raw]
    · rfl
  | nameUncompressed n =>
    simp only [apply, nameUncompressed, PackOp.bytes, raw, Name.appendWire]
    split <;> simp
  | _ => rfl

theorem Packer.run_plain {ops : List PackOp} (hops : ∀ op ∈ ops, op.compressed = none) (p : Packer) :
    p.run ops = p.raw (ops.flatMap PackOp.bytes) := by
  induction ops generalizing p with
  | nil => simp [run, raw]
  | cons op ops ih =>
    obtain ⟨hop, hops⟩ := forall_mem_cons.mp hops
    rw [run, foldl_cons, ← run, apply_plain hop, ih hops, flatMap_cons]
    simp [raw]

/-! ### Layouts -/

structure Layout where
  len : Nat
  /-- For each remembered suffix, the pointers that follow from where it was emitted. -/
  depths : List (Bytes × Nat)

namespace Layout

def empty : Layout := ⟨0, []⟩

/-- Lay out a name; the second component counts the pointers a decoder follows in it. -/
def name : List Bytes → Layout → Layout × Nat
  | [], lay => ({ lay with len := lay.len + 1 }, 0)
  | l :: ls, lay =>
    let rest := name ls { lay with len := lay.len + 1 + l.length }
    if lay.len < 2 ^ 14 then
      match lay.depths.lookup (Labels.encode (l :: ls)) with
      | some depth => ({ lay with len := lay.len + 2 }, depth + 1)
      | none => ({ rest.1 with depths := (Labels.encode (l :: ls), rest.2) :: rest.1.depths }, rest.2)
    else rest

def skip (lay : Layout) (n : Nat) : Layout := { lay with len := lay.len + n }

/-- Lay out a list of calls; the second component has the pointer count of each compressed name. -/
def run : List PackOp → Layout → Layout × List Nat
  | [], lay => (lay, [])
  | op :: ops, lay =>
    match op.compressed with
    | some n =>
      let (lay, hops) := name n.labels lay
      let (lay, rest) := run ops lay
      (lay, hops :: rest)
    | none => run ops (lay.skip op.bytes.length)

variable {lay : Layout} {k : Nat}

theorem name_hops_le (ls : List Bytes) (hlay : ∀ e ∈ lay.depths, e.2 ≤ k) :
    (name ls lay).2 ≤ k + 1 ∧ ∀ e ∈ (name ls lay).1.depths, e.2 ≤ k + 1 := by
  have hold : ∀ e ∈ lay.depths, e.2 ≤ k + 1 := fun e he => Nat.le_succ_of_le (hlay e he)
  induction ls generalizing lay with
  | nil => exact ⟨Nat.zero_le _, hold⟩
  | cons l ls ih =>
    obtain ⟨hrest, hdepths⟩ := @ih { lay with len := lay.len + 1 + l.length } hlay hold
    rw [name]
    split
    · split
      · next depth hlookup =>
        obtain ⟨before, after, hsplit, -⟩ := lookup_eq_some_iff.mp hlookup
        have hdepth : depth ≤ k := hlay (Labels.encode (l :: ls), depth) (by rw [hsplit]; simp)
        exact ⟨Nat.succ_le_succ hdepth, hold⟩
      · exact ⟨hrest, forall_mem_cons.mpr ⟨hrest, hdepths⟩⟩
    · exact ⟨hrest, hdepths⟩

theorem run_hops_le (ops : List PackOp) (hlay : ∀ e ∈ lay.depths, e.2 ≤ k) :
    ∀ hop ∈ (run ops lay).2, hop ≤ k + ops.length := by
  induction ops generalizing lay k with
  | nil => exact forall_mem_nil _
  | cons op ops ih =>
    rw [run]
    split
    · next n _ =>
      obtain ⟨hname, hdepths⟩ := name_hops_le n.labels hlay
      rw [length_cons]
      refine forall_mem_cons.mpr ⟨by omega, fun hop hhop => ?_⟩
      have hle := ih hdepths hop hhop
      omega
    · intro hop hhop
      have hle := @ih (lay.skip op.bytes.length) k hlay hop hhop
      rw [length_cons]
      omega

end Layout

/-- The suffix stands in the buffer from `ptr` on, behind `depth` pointers. -/
def Spelled (buf suffix : Bytes) (ptr depth : Nat) : Prop :=
  ∃ ls next, suffix = Labels.encode ls ∧ ptr < 2 ^ 14 ∧ Spells buf ptr ls depth next

theorem Spelled.mono {ptr depth : Nat} (h : Spelled buf suffix ptr depth)
    (hbuf : buf <+: buf') : Spelled buf' suffix ptr depth := by
  obtain ⟨ls, next, hsuffix, hptr, hspells⟩ := h
  exact ⟨ls, next, hsuffix, hptr, hspells.mono hbuf⟩

/-- The packer's table and the layout remember a suffix alike. -/
def Agree (buf : Bytes) (comp depths : List (Bytes × Nat)) (suffix : Bytes) : Prop :=
  (comp.lookup suffix = none ∧ depths.lookup suffix = none) ∨
    ∃ ptr depth, comp.lookup suffix = some ptr ∧ depths.lookup suffix = some depth ∧
      Spelled buf suffix ptr depth

theorem Agree.mono {comp depths : List (Bytes × Nat)}
    (h : Agree buf comp depths suffix) (hbuf : buf <+: buf') : Agree buf' comp depths suffix := by
  rcases h with h | ⟨ptr, depth, hptr, hdepth, hspelled⟩
  · exact .inl h
  · exact .inr ⟨ptr, depth, hptr, hdepth, hspelled.mono hbuf⟩

/-- A layout follows a packer: same length, same suffixes. -/
structure Tracks (p : Packer) (lay : Layout) : Prop where
  len : lay.len = p.buf.length
  agree : ∀ suffix, Agree p.buf p.comp lay.depths suffix

theorem tracks_new : Tracks Packer.new Layout.empty := ⟨rfl, fun _ => .inl ⟨rfl, rfl⟩⟩

/-! ### Packing a name -/

section PackName

variable {p : Packer} {lay : Layout} {l : Bytes} {ls : List Bytes} {fuel : Nat}

theorem Packer.nameLoop_nil (hfuel : 0 < fuel) : nameLoop fuel (Labels.encode []) p = p.raw [0] := by
  obtain ⟨fuel, rfl⟩ := Nat.exists_eq_succ_of_ne_zero (Nat.ne_zero_of_lt hfuel)
  rfl

theorem Packer.nameLoop_cons (hl : IsLabel l) (hfuel : 0 < fuel) :
    nameLoop fuel (Labels.encode (l :: ls)) p =
      match p.pointerTo (Labels.encode (l :: ls)) with
      | some ptr => p.raw (Labels.reference ptr)
      | none => nameLoop (fuel - 1) (Labels.encode ls)
          ((p.remember (Labels.encode (l :: ls))).raw (UInt8.ofNat l.length :: l)) := by
  obtain ⟨fuel, rfl⟩ := Nat.exists_eq_succ_of_ne_zero (Nat.ne_zero_of_lt hfuel)
  rewrite [Labels.encode, Nat.succ_eq_add_one, nameLoop, if_neg hl.ofNat_length_ne_zero, hl.toNat_length,
    take_left, drop_left, Nat.add_sub_cancel]
  rfl

/-- The labels are spelled at the end of the old buffer, the layout follows, and every new entry of the compression map
is spelled as well. -/
structure NameEmitted (p : Packer) (lay : Layout) (ls : List Bytes) (q : Packer) (lay' : Layout)
    (hops : Nat) : Prop where
  extends_ : p.buf <+: q.buf
  len : lay'.len = q.buf.length
  spells : Spells q.buf p.buf.length ls hops q.buf.length
  entries : ∀ suffix, (q.comp.lookup suffix = p.comp.lookup suffix ∧
      lay'.depths.lookup suffix = lay.depths.lookup suffix) ∨
    (suffix.length ≤ (Labels.encode ls).length ∧ ∃ ptr depth, q.comp.lookup suffix = some ptr ∧
      lay'.depths.lookup suffix = some depth ∧ Spelled q.buf suffix ptr depth)

private theorem nameEmitted_nil (hlen : lay.len = p.buf.length) :
    NameEmitted p lay [] (p.raw [0]) { lay with len := lay.len + 1 } 0 where
  extends_ := prefix_append _ _
  len := by simp [Packer.raw, hlen]
  spells := by
    have hat : At (p.raw [0]).buf p.buf.length [0] := by
      simpa [Packer.raw] using Octets.at_length_append p.buf [0] []
    simpa [Packer.raw] using Spells.root hat
  entries := fun _ => .inl ⟨rfl, rfl⟩

private theorem nameEmitted_pointer {ptr depth : Nat} (hlen : lay.len = p.buf.length)
    (hls : ∀ l ∈ ls, IsLabel l) (hspelled : Spelled p.buf (Labels.encode ls) ptr depth) :
    NameEmitted p lay ls (p.raw (Labels.reference ptr)) { lay with len := lay.len + 2 } (depth + 1) where
  extends_ := prefix_append _ _
  len := by simp [Packer.raw, Labels.reference, hlen]
  spells := by
    obtain ⟨ls', next, hencode, hptr, hspells⟩ := hspelled
    obtain rfl := Labels.encode_injective hls hspells.isLabel hencode
    have hat : At (p.raw (Labels.reference ptr)).buf p.buf.length (Labels.reference ptr) := by
      simpa [Packer.raw] using Octets.at_length_append p.buf (Labels.reference ptr) []
    have hback : ptr < p.buf.length := Nat.lt_of_lt_of_le hspells.lt_next hspells.next_le
    simpa [Packer.raw, Labels.reference] using
      Spells.pointer hback hptr hat (hspells.mono (prefix_append _ _))
  entries := fun _ => .inl ⟨rfl, rfl⟩

private theorem nameEmitted_label {q : Packer} {lay' : Layout} {hops : Nat} {comp : List (Bytes × Nat)}
    (hl : IsLabel l) (hq : NameEmitted ⟨p.buf ++ UInt8.ofNat l.length :: l, comp⟩
      { lay with len := lay.len + 1 + l.length } ls q lay' hops) :
    p.buf <+: q.buf ∧ Spells q.buf p.buf.length (l :: ls) hops q.buf.length := by
  have hgrow : p.buf ++ UInt8.ofNat l.length :: l <+: q.buf := hq.extends_
  have hat : At q.buf p.buf.length (UInt8.ofNat l.length :: l) := by
    refine At.mono ?_ hgrow
    simpa using Octets.at_length_append p.buf (UInt8.ofNat l.length :: l) []
  have hspells := hq.spells
  simp only [length_append, length_cons] at hspells
  refine ⟨(prefix_append _ _).trans hgrow, .label hl hat ?_⟩
  rwa [Nat.add_assoc, Nat.add_comm 1]

private theorem lookup_cons_of_length_lt {key suffix : Bytes} {v : Nat} {entries : List (Bytes × Nat)}
    (hlt : suffix.length < key.length) : ((key, v) :: entries).lookup suffix = entries.lookup suffix := by
  have hne : suffix ≠ key := fun heq => absurd (congrArg List.length heq) (Nat.ne_of_lt hlt)
  rw [lookup_cons, beq_false_of_ne hne]

private theorem agree_label (hshort : (Labels.encode ls).length < (Labels.encode (l :: ls)).length)
    (hagree : ∀ suffix, suffix.length ≤ (Labels.encode (l :: ls)).length →
      Agree p.buf p.comp lay.depths suffix) {suffix : Bytes} (hsuffix : suffix.length ≤ (Labels.encode ls).length) :
    Agree (p.buf ++ UInt8.ofNat l.length :: l)
      ((Labels.encode (l :: ls), p.buf.length) :: p.comp) lay.depths suffix := by
  have h := (hagree suffix (by omega)).mono (prefix_append p.buf (UInt8.ofNat l.length :: l))
  rwa [Agree, ← lookup_cons_of_length_lt (Nat.lt_of_le_of_lt hsuffix hshort)] at h

/-- The loop emits the labels, and the layout says by how many pointers. -/
theorem nameEmitted_nameLoop (hls : ∀ l ∈ ls, IsLabel l) (hfuel : ls.length < fuel)
    (hlen : lay.len = p.buf.length)
    (hagree : ∀ suffix, suffix.length ≤ (Labels.encode ls).length → Agree p.buf p.comp lay.depths suffix) :
    NameEmitted p lay ls (Packer.nameLoop fuel (Labels.encode ls) p) (lay.name ls).1 (lay.name ls).2 := by
  induction ls generalizing p lay fuel with
  | nil =>
    rw [Packer.nameLoop_nil hfuel]
    exact nameEmitted_nil hlen
  | cons l ls ih =>
    have hl := hls l (.head _)
    have hls' := fun k hk => hls k (.tail _ hk)
    have hfuel' : ls.length < fuel - 1 := by
      rw [length_cons] at hfuel
      omega
    have hshort := Labels.length_encode_lt_cons l ls
    have hlen' : lay.len + 1 + l.length = (p.buf ++ UInt8.ofNat l.length :: l).length := by
      rw [length_append, length_cons]
      omega
    rw [Packer.nameLoop_cons hl (Nat.zero_lt_of_lt hfuel), Layout.name]
    by_cases hroom : p.buf.length < 2 ^ 14
    · rw [if_pos (by rwa [hlen])]
      rcases hagree _ (Nat.le_refl _) with ⟨hcomp, hdepths⟩ | ⟨ptr, depth, hcomp, hdepths, hspelled⟩
      · -- The suffix is new: it is remembered here and spelled once the rest is out.
        have hrest := @ih ⟨p.buf ++ UInt8.ofNat l.length :: l,
          (Labels.encode (l :: ls), p.buf.length) :: p.comp⟩
          { lay with len := lay.len + 1 + l.length } (fuel - 1) hls' hfuel' hlen'
          (fun _ => agree_label hshort hagree)
        obtain ⟨hextends, hspells⟩ := nameEmitted_label hl hrest
        simp only [Packer.pointerTo, hcomp, hdepths, Option.filter_none, Packer.remember, if_pos hroom]
        refine ⟨hextends, hrest.len, hspells, fun suffix => ?_⟩
        by_cases heq : suffix = Labels.encode (l :: ls)
        · subst heq
          have hself : _ ∨ _ := hrest.entries (Labels.encode (l :: ls))
          rw [lookup_cons_self] at hself
          rcases hself with ⟨hnew, -⟩ | ⟨hle, -⟩
          · refine .inr ⟨Nat.le_refl _, _, _, hnew, lookup_cons_self, ?_⟩
            exact ⟨l :: ls, _, rfl, hroom, hspells⟩
          · omega
        · have hother := hrest.entries suffix
          simp only [lookup_cons, beq_false_of_ne heq] at hother ⊢
          rcases hother with hother | ⟨hle, hother⟩
          · exact .inl hother
          · exact .inr ⟨by omega, hother⟩
      · have hptr : ptr < 2 ^ 14 := by
          obtain ⟨_, _, _, hptr, _⟩ := hspelled
          exact hptr
        simp only [Packer.pointerTo, hcomp, hdepths, Option.filter_some, hptr, hroom, and_self,
          decide_true, if_true]
        exact nameEmitted_pointer hlen hls hspelled
    · -- Beyond the reach of pointers nothing is looked up and nothing is remembered.
      have hrest := @ih ⟨p.buf ++ UInt8.ofNat l.length :: l, p.comp⟩
        { lay with len := lay.len + 1 + l.length } (fuel - 1) hls' hfuel' hlen'
        (fun suffix hsuffix => (hagree suffix (by omega)).mono (prefix_append _ _))
      obtain ⟨hextends, hspells⟩ := nameEmitted_label hl hrest
      rw [if_neg (by rwa [hlen])]
      have hnone : p.pointerTo (Labels.encode (l :: ls)) = none := by
        grind [Packer.pointerTo, Option.filter_eq_none_iff]
      simp only [hnone, Packer.remember, if_neg hroom]
      refine ⟨hextends, hrest.len, hspells, fun suffix => ?_⟩
      rcases hrest.entries suffix with hother | ⟨hle, hother⟩
      · exact .inl hother
      · exact .inr ⟨by omega, hother⟩

theorem Packer.nameWire_eq (n : Name) : nameWire n = Labels.encode n.labels := by
  grind [nameWire, Name.appendWire_nil, Name.labels, Labels.encode]

theorem nameEmitted_name (htracks : Tracks p lay) (n : Name) :
    NameEmitted p lay n.labels (p.name n) (lay.name n.labels).1 (lay.name n.labels).2 := by
  rw [Packer.name, Packer.nameWire_eq]
  exact nameEmitted_nameLoop (fun l hl => (Name.isNameLabel_of_mem_labels hl).1)
    (Labels.length_lt_length_encode _) htracks.len fun suffix _ => htracks.agree suffix

theorem NameEmitted.tracks {q : Packer} {lay' : Layout} {hops : Nat} (htracks : Tracks p lay)
    (h : NameEmitted p lay ls q lay' hops) : Tracks q lay' where
  len := h.len
  agree := fun suffix => by
    rcases h.entries suffix with ⟨hcomp, hdepths⟩ | ⟨-, hnew⟩
    · have hold := (htracks.agree suffix).mono h.extends_
      rwa [Agree, ← hcomp, ← hdepths] at hold
    · exact .inr hnew

end PackName

/-! ### Packing a list of calls -/

/-- The calls have left their data from `off` to `off'`, the compressed names behind `hops` pointers. -/
inductive Laid (msg : Bytes) : (off : Nat) → List PackOp → (hops : List Nat) → (off' : Nat) → Prop
  | nil {off : Nat} : Laid msg off [] [] off
  | plain {off off' : Nat} {op : PackOp} {ops : List PackOp} {hops : List Nat}
      (hop : op.compressed = none) (hbytes : At msg off op.bytes)
      (hrest : Laid msg (off + op.bytes.length) ops hops off') : Laid msg off (op :: ops) hops off'
  | name {off next off' hop : Nat} {n : Name} {ops : List PackOp} {hops : List Nat}
      (hname : Spells msg off n.labels hop next) (hrest : Laid msg next ops hops off') :
      Laid msg off (.name n :: ops) (hop :: hops) off'

section Run

variable {p : Packer} {lay : Layout} {ops : List PackOp}

theorem Tracks.raw (htracks : Tracks p lay) (bs : Bytes) : Tracks (p.raw bs) (lay.skip bs.length) where
  len := by simp [Packer.raw, Layout.skip, htracks.len]
  agree := fun suffix => (htracks.agree suffix).mono (prefix_append _ _)

/-- **A packed list of calls.** The buffer is extended, the layout follows, and the data is laid out behind the old
buffer. -/
theorem laid_run (htracks : Tracks p lay) :
    p.buf <+: (p.run ops).buf ∧ Tracks (p.run ops) (lay.run ops).1 ∧
      ∀ msg, (p.run ops).buf <+: msg →
        Laid msg p.buf.length ops (lay.run ops).2 (p.run ops).buf.length := by
  induction ops generalizing p lay with
  | nil => exact ⟨prefix_refl _, htracks, fun _ _ => .nil⟩
  | cons op ops ih =>
    cases hop : op.compressed with
    | none =>
      have htail := @ih (p.raw op.bytes) (lay.skip op.bytes.length) (htracks.raw op.bytes)
      have hrun : p.run (op :: ops) = (p.raw op.bytes).run ops := by
        rw [Packer.run, foldl_cons, Packer.apply_plain hop]
        rfl
      have hlay : lay.run (op :: ops) = (lay.skip op.bytes.length).run ops := by
        simp only [Layout.run, hop]
      rw [hrun, hlay]
      obtain ⟨hgrow, htracks', hlaid⟩ := htail
      refine ⟨(prefix_append _ _).trans hgrow, htracks', fun msg hmsg => ?_⟩
      have hat : At msg p.buf.length op.bytes := by
        refine At.mono ?_ (hgrow.trans hmsg)
        simpa [Packer.raw] using Octets.at_length_append p.buf op.bytes []
      refine .plain hop hat ?_
      have hrest := hlaid msg hmsg
      rwa [Packer.raw, length_append] at hrest
    | some n =>
      obtain rfl := PackOp.eq_name_of_compressed hop
      have hemit := nameEmitted_name htracks n
      have htail := @ih (p.name n) (lay.name n.labels).1 (hemit.tracks htracks)
      have hrun : p.run (.name n :: ops) = (p.name n).run ops := rfl
      have hlay : lay.run (.name n :: ops) = (((lay.name n.labels).1.run ops).1,
          (lay.name n.labels).2 :: ((lay.name n.labels).1.run ops).2) := rfl
      obtain ⟨hgrow, htracks', hlaid⟩ := htail
      exact ⟨hemit.extends_.trans hgrow, htracks', fun msg hmsg =>
        .name (hemit.spells.mono (hgrow.trans hmsg)) (hlaid msg hmsg)⟩

/-- The bytes emitted depend on the table and the length only. -/
private theorem nameLoop_congr {fuel : Nat} {wire : Bytes} {q : Packer}
    (hlen : p.buf.length = q.buf.length) (hcomp : p.comp = q.comp) :
    ∃ out comp, Packer.nameLoop fuel wire p = ⟨p.buf ++ out, comp⟩ ∧
      Packer.nameLoop fuel wire q = ⟨q.buf ++ out, comp⟩ := by
  induction fuel generalizing wire p q with
  | zero => exact ⟨[], p.comp, by simp [Packer.nameLoop], by simp [Packer.nameLoop, hcomp]⟩
  | succ fuel ih =>
    cases wire with
    | nil => exact ⟨[], p.comp, by simp [Packer.nameLoop], by simp [Packer.nameLoop, hcomp]⟩
    | cons l rest =>
      have hptr : q.pointerTo (l :: rest) = p.pointerTo (l :: rest) := by
        rw [Packer.pointerTo, Packer.pointerTo, hlen, hcomp]
      simp only [Packer.nameLoop, hptr]
      split
      · exact ⟨[0], p.comp, rfl, by rw [hcomp]; rfl⟩
      · split
        · exact ⟨_, p.comp, rfl, by rw [hcomp]; rfl⟩
        · have hremember : (p.remember (l :: rest)).comp = (q.remember (l :: rest)).comp := by
            simp only [Packer.remember, hlen]
            split <;> simp [hcomp]
          have hbuf : ∀ r : Packer, (r.remember (l :: rest)).buf = r.buf := fun r => by
            rw [Packer.remember]
            split <;> rfl
          obtain ⟨out, comp, hp, hq⟩ := @ih
            ((p.remember (l :: rest)).raw (l :: rest.take l.toNat)) (rest.drop l.toNat)
            ((q.remember (l :: rest)).raw (l :: rest.take l.toNat))
            (by simp [Packer.raw, hbuf, hlen]) hremember
          refine ⟨l :: rest.take l.toNat ++ out, comp, ?_, ?_⟩
          · rw [hp, Packer.raw, hbuf, append_assoc]
          · rw [hq, Packer.raw, hbuf, append_assoc]

theorem Packer.run_congr {q : Packer} (hlen : p.buf.length = q.buf.length) (hcomp : p.comp = q.comp) :
    ∃ out comp, p.run ops = ⟨p.buf ++ out, comp⟩ ∧ q.run ops = ⟨q.buf ++ out, comp⟩ := by
  induction ops generalizing p q with
  | nil => exact ⟨[], p.comp, by simp [run], by simp [run, hcomp]⟩
  | cons op ops ih =>
    have happly : ∃ out comp, p.apply op = ⟨p.buf ++ out, comp⟩ ∧ q.apply op = ⟨q.buf ++ out, comp⟩ := by
      cases hop : op.compressed with
      | none =>
        rw [apply_plain hop, apply_plain hop]
        exact ⟨op.bytes, p.comp, rfl, by rw [hcomp]; rfl⟩
      | some n =>
        obtain rfl := PackOp.eq_name_of_compressed hop
        exact nameLoop_congr hlen hcomp
    obtain ⟨out, comp, hp, hq⟩ := happly
    obtain ⟨out', comp', hp', hq'⟩ := @ih (p.apply op) (q.apply op) (by simp [hp, hq, hlen]) (by rw [hp, hq])
    refine ⟨out ++ out', comp', ?_, ?_⟩
    · rw [run, foldl_cons, ← run, hp', hp, append_assoc]
    · rw [run, foldl_cons, ← run, hq', hq, append_assoc]

end Run

/-! ### Taking a layout apart -/

section Laid

variable {msg : Bytes} {off off' : Nat} {ops ops' : List PackOp} {hops : List Nat}

@[simp] theorem laid_nil : Laid msg off [] hops off' ↔ hops = [] ∧ off' = off := by
  constructor
  · intro h
    cases h
    exact ⟨rfl, rfl⟩
  · intro h
    obtain ⟨rfl, rfl⟩ := h
    exact .nil

theorem laid_plain {op : PackOp} (hop : op.compressed = none) :
    Laid msg off (op :: ops) hops off' ↔
      At msg off op.bytes ∧ Laid msg (off + op.bytes.length) ops hops off' := by
  constructor
  · intro h
    cases h with
    | plain _ hbytes hrest => exact ⟨hbytes, hrest⟩
    | name => cases hop
  · intro h
    exact .plain hop h.1 h.2

@[simp] theorem laid_uint8 {v : UInt8} : Laid msg off (.uint8 v :: ops) hops off' ↔
    At msg off [v] ∧ Laid msg (off + 1) ops hops off' :=
  laid_plain rfl

@[simp] theorem laid_uint16 {v : UInt16} : Laid msg off (.uint16 v :: ops) hops off' ↔
    At msg off (bigEndian 2 v.toNat) ∧ Laid msg (off + 2) ops hops off' := by
  rw [laid_plain rfl, PackOp.bytes, Octets.length_bigEndian]

@[simp] theorem laid_uint32 {v : UInt32} : Laid msg off (.uint32 v :: ops) hops off' ↔
    At msg off (bigEndian 4 v.toNat) ∧ Laid msg (off + 4) ops hops off' := by
  rw [laid_plain rfl, PackOp.bytes, Octets.length_bigEndian]

@[simp] theorem laid_raw {bs : Bytes} : Laid msg off (.raw bs :: ops) hops off' ↔
    At msg off bs ∧ Laid msg (off + bs.length) ops hops off' :=
  laid_plain rfl

@[simp] theorem laid_charString {s : Decoder.CharString} : Laid msg off (.charString s.val :: ops) hops off' ↔
    At msg off (UInt8.ofNat s.val.length :: s.val) ∧ Laid msg (off + (1 + s.val.length)) ops hops off' := by
  have hs : ¬s.val.length > 255 := Nat.not_lt.mpr s.property
  rw [laid_plain rfl, PackOp.bytes, if_neg hs, length_cons, Nat.add_comm 1]

theorem laid_nameUncompressed {n : Name} (hn : n.isValid) :
    Laid msg off (.nameUncompressed n :: ops) hops off' ↔
      At msg off n.wire ∧ decodeWireUncompressed msg off = .ok (n, off + n.wire.length) ∧
        Laid msg (off + n.wire.length) ops hops off' := by
  rw [laid_plain rfl, PackOp.bytes, Name.appendWire, if_pos hn, nil_append]
  exact and_congr_right fun h => (and_iff_right (Name.decodeWireUncompressed_of_at hn h)).symm

theorem laid_name {n : Name} : Laid msg off (.name n :: ops) hops off' ↔
    ∃ hop rest next, hops = hop :: rest ∧ Spells msg off n.labels hop next ∧ Laid msg next ops rest off' := by
  constructor
  · intro h
    cases h with
    | plain hop => cases hop
    | name hname hrest => exact ⟨_, _, _, rfl, hname, hrest⟩
  · intro h
    obtain ⟨hop, rest, next, rfl, hname, hrest⟩ := h
    exact .name hname hrest

theorem Laid.le (h : Laid msg off ops hops off') : off ≤ off' := by
  induction h with
  | nil => exact Nat.le_refl _
  | plain _ _ _ ih => omega
  | name hname _ ih => exact Nat.le_trans (Nat.le_of_lt hname.lt_next) ih

/-- The call writes at least one byte, and all of what it is given. -/
def PackOp.Occupies : PackOp → Prop
  | .raw bs => bs ≠ []
  | .charString s => s.length ≤ 255
  | .nameUncompressed n => n.isValid
  | _ => True

theorem Laid.lt_of_occupies {op : PackOp} (h : Laid msg off (op :: ops) hops off') (hop : op.Occupies) :
    off < off' := by
  cases op with
  | uint8 v => exact Nat.lt_of_lt_of_le (by omega) (laid_uint8.mp h).2.le
  | uint16 v => exact Nat.lt_of_lt_of_le (by omega) (laid_uint16.mp h).2.le
  | uint32 v => exact Nat.lt_of_lt_of_le (by omega) (laid_uint32.mp h).2.le
  | raw bs =>
    have hpos := length_pos_iff.mpr hop
    exact Nat.lt_of_lt_of_le (by omega) (laid_raw.mp h).2.le
  | charString s =>
    have hs : Laid msg off (.charString (⟨s, hop⟩ : Decoder.CharString).val :: ops) hops off' := h
    exact Nat.lt_of_lt_of_le (by omega) (laid_charString.mp hs).2.le
  | name n =>
    obtain ⟨hop, rest, next, -, hname, hrest⟩ := laid_name.mp h
    exact Nat.lt_of_lt_of_le hname.lt_next hrest.le
  | nameUncompressed n =>
    have hpos := Name.length_wire_pos hop
    exact Nat.lt_of_lt_of_le (by omega) ((laid_nameUncompressed hop).mp h).2.2.le

theorem Laid.mono {msg' : Bytes} (h : Laid msg off ops hops off') (hmsg : msg <+: msg') :
    Laid msg' off ops hops off' := by
  induction h with
  | nil => exact .nil
  | plain hop hbytes _ ih => exact .plain hop (hbytes.mono hmsg) ih
  | name hname _ ih => exact .name (hname.mono hmsg) ih

theorem Laid.append_inv (h : Laid msg off (ops ++ ops') hops off') :
    ∃ mid front back, hops = front ++ back ∧ Laid msg off ops front mid ∧ Laid msg mid ops' back off' := by
  induction ops generalizing off hops with
  | nil => exact ⟨off, [], hops, rfl, .nil, h⟩
  | cons op ops ih =>
    cases h with
    | plain hop hbytes hrest =>
      obtain ⟨mid, front, back, rfl, hfront, hback⟩ := ih hrest
      exact ⟨mid, front, back, rfl, .plain hop hbytes hfront, hback⟩
    | name hname hrest =>
      obtain ⟨mid, front, back, rfl, hfront, hback⟩ := ih hrest
      exact ⟨mid, _ :: front, back, rfl, .name hname hfront, hback⟩

theorem Laid.inline_inv (h : Laid msg off ops hops off') (hzero : ∀ hop ∈ hops, hop = 0) :
    At msg off (ops.flatMap PackOp.bytes) ∧ off' = off + (ops.flatMap PackOp.bytes).length := by
  induction h with
  | nil => simp
  | @plain off off' op ops hops hop hbytes _ ih => grind [Octets.at_append]
  | @name off next off' hop n ops hops hname _ ih =>
    obtain ⟨rfl, hrest⟩ := forall_mem_cons.mp hzero
    obtain ⟨hat, rfl⟩ := ih hrest
    rcases hname.inline with ⟨-, hat', rfl⟩ | ⟨hpos, -⟩
    · rw [flatMap_cons, Octets.at_append, length_append, PackOp.bytes, Name.appendWire_nil]
      exact ⟨⟨hat', hat⟩, by omega⟩
    · omega

theorem plain_flatMap {α : Type} {xs : List α} {f : α → List PackOp} (h : ∀ a, ∀ op ∈ f a, op.compressed = none) :
    ∀ op ∈ xs.flatMap f, op.compressed = none := by
  intro op hop
  obtain ⟨a, -, ha⟩ := mem_flatMap.mp hop
  exact h a op ha

theorem Laid.plain_inv (hops' : ∀ op ∈ ops, op.compressed = none) (h : Laid msg off ops hops off') :
    hops = [] ∧ At msg off (ops.flatMap PackOp.bytes) ∧ off' = off + (ops.flatMap PackOp.bytes).length := by
  have hnil : hops = [] := by
    induction h with
    | nil => rfl
    | plain _ _ _ ih => exact ih fun o ho => hops' o (.tail _ ho)
    | name => exact absurd (hops' _ (.head _)) nofun
  exact ⟨hnil, h.inline_inv (by simp [hnil])⟩

end Laid

end Acidns
