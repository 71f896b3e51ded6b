import Acidns.Wire.Record

/-!
# The window of the data

`rdata.go`. `Unpack` reads the data of a record from a window of the message. What it accepts comes back when it is
packed and read on its own. Outside the window only pointers lead anywhere: a decoder without compressed names looks
at nothing behind its window, and for the others it is the names that decide.
-/

namespace Acidns

open Parser Decoder List
open Octets (At)

/-! ### Reading back -/

namespace RData

theorem hops_packed_le (r : RData) : ∀ hop ∈ (Layout.empty.run r.ops).2, hop ≤ maxPtrHops := by
  by_cases hcompresses : r.Compresses
  · intro hop hhop
    have hle := @Layout.run_hops_le Layout.empty 0 r.ops (forall_mem_nil _) hop hhop
    have hlen : r.ops.length ≤ 7 := by
      cases r with
      | cname _ | ns _ | ptr _ | nsapptr _ | mx _ | soa _ | rp _ => simp [RData.ops, MX.ops, SOA.ops, RP.ops]
      | _ => exact hcompresses.elim
    unfold maxPtrHops
    omega
  · rw [Layout.run_plain (RData.plain_ops hcompresses)]
    exact forall_mem_nil _

theorem reads_unpack_packed {r : RData} (hr : r.Normal) :
    (unpack r.type r.packed.length).Reads maxPtrHops r.packed 0 r r.packed.length := by
  obtain ⟨-, -, hlaid⟩ := @laid_run Packer.new Layout.empty r.ops tracks_new
  have hwhole : Laid r.packed 0 r.ops (Layout.empty.run r.ops).2 (0 + r.packed.length) := by
    rw [Nat.zero_add]
    exact hlaid r.packed (prefix_refl _)
  have hread := reads_unpack hr hwhole (hops_packed_le r) (Nat.le_of_eq (Nat.zero_add _))
  rwa [Nat.zero_add] at hread

/-- **What is accepted comes back.** -/
theorem unpack_packed {t : RRType} {rdlen : Nat} {c c' : Unpacker} {r : RData}
    (h : unpack t rdlen maxPtrHops c = (.ok r, c')) :
    unpack t r.packed.length maxPtrHops ⟨r.packed, 0⟩ = (.ok r, ⟨r.packed, r.packed.length⟩) := by
  obtain ⟨rfl, hr⟩ := ensures_unpack r c' h
  exact reads_unpack_packed hr

def sampleMX : RData := .mx ⟨10, Name.Short.a⟩

theorem unpack_packed_mx : unpack .mx sampleMX.packed.length maxPtrHops ⟨sampleMX.packed, 0⟩ =
    (.ok sampleMX, ⟨sampleMX.packed, sampleMX.packed.length⟩) :=
  @unpack_packed .mx 5 ⟨[7, 0, 10, 1, 0x41, 0, 7], 1⟩ ⟨[7, 0, 10, 1, 0x41, 0, 7], 6⟩ sampleMX rfl

end RData

/-! ### Names in a window -/

section Names

variable {maxHops end_ off next : Nat} {msg msg' : Bytes} {n : Name}

theorem decodeWire_mono (h : decodeWire maxHops msg off = .ok (n, next)) (hmsg : msg <+: msg') :
    decodeWire maxHops msg' off = .ok (n, next) := by
  obtain ⟨ls, hops, hspells, hwire, hhops⟩ := spells_of_decodeWire h
  exact Name.decodeWire_of_spells_fold hwire (hspells.mono hmsg) hhops

/-- The name at an offset can be read in the message cut at `cut`. -/
def ReadsName (msg : Bytes) (cut off : Nat) : Prop := ∃ found, decodeWire maxPtrHops (msg.take cut) off = .ok found

theorem confined_nameInRange {cut : Nat} :
    Confined maxPtrHops msg cut off (ReadsName msg cut off) (nameInRange end_) where
  grow n next h := by
    obtain ⟨hdecode, hle⟩ := reads_nameInRange_iff.mp h
    exact ⟨reads_nameInRange_iff.mpr ⟨decodeWire_mono hdecode <| take_prefix _ _, hle⟩, _, hdecode⟩
  cut n next h := by
    obtain ⟨hdecode, hle⟩ := reads_nameInRange_iff.mp h
    refine ⟨Nat.le_of_lt (bounds_of_decodeWire hdecode).1, fun _ ⟨⟨n', next'⟩, hfound⟩ => ?_⟩
    have hsame := hdecode.symm.trans (decodeWire_mono hfound <| take_prefix _ _)
    rw [← Except.ok.inj hsame] at hfound
    exact reads_nameInRange_iff.mpr ⟨hfound, hle⟩

end Names

/-! ### Isolation -/

/-- Where the compressed names start in data of type `t` at `off`; a second one follows the first. -/
def compressedNames (t : RRType) (msg : Bytes) (off : Nat) : List Nat :=
  if t = .mx then [off + 2]
  else if t = .soa ∨ t = .rp then off :: ((decodeWire maxPtrHops msg off).toOption.map Prod.snd).toList
  else if t ∈ compressing then [off]
  else []

instance (rdlen : Nat) : KeepsMessage (unpackTarget rdlen) := by dsimp only [unpackTarget]; infer_instance
instance (rdlen : Nat) : KeepsMessage (unpackMX rdlen) := by dsimp only [unpackMX]; infer_instance
instance (rdlen : Nat) : KeepsMessage (unpackSOA rdlen) := by dsimp only [unpackSOA]; infer_instance
instance (rdlen : Nat) : KeepsMessage (unpackRP rdlen) := by dsimp only [unpackRP]; infer_instance

section Isolation

variable {t : RRType} {msg : Bytes} {off rdlen cut maxHops : Nat}

theorem confined_unpackTarget : Confined maxPtrHops msg cut off (ReadsName msg cut off) (unpackTarget rdlen) :=
  .after fun _ _ h => by
    obtain ⟨rfl, rfl⟩ := reads_offset_iff.mp h
    exact confined_nameInRange

theorem confined_unpackMX : Confined maxPtrHops msg cut off (ReadsName msg cut (off + 2)) (unpackMX rdlen) := by
  refine .after fun _ _ h => ?_
  obtain ⟨-, rfl⟩ := reads_failIf_iff.mp h
  refine .after fun _ _ h => ?_
  obtain ⟨rfl, rfl⟩ := reads_offset_iff.mp h
  refine .after fun pref _ h => ?_
  obtain ⟨b, mid, htake, hpure⟩ := reads_bind_iff.mp h
  obtain ⟨-, -, rfl⟩ := reads_take_iff.mp htake
  obtain ⟨-, rfl⟩ := reads_pure_iff.mp hpure
  exact confined_nameInRange.before

theorem confined_twoNames {α : Type} {end_ : Nat} {f : Name → Name → Decoder α} [∀ n n', Local (f n n')] :
    Confined maxPtrHops msg cut off
      (∀ at_ ∈ off :: ((decodeWire maxPtrHops msg off).toOption.map Prod.snd).toList, ReadsName msg cut at_)
      (nameInRange end_ >>= fun n => nameInRange end_ >>= f n) := by
  refine (confined_nameInRange.bind fun n next h => ?_).imp (forall_mem_cons (p := ReadsName msg cut)).symm
  obtain ⟨hdecode, -⟩ := reads_nameInRange_iff.mp h
  rw [hdecode]
  exact confined_nameInRange.before.imp (forall_mem_singleton (p := ReadsName msg cut)).symm

theorem confined_unpackSOA : Confined maxPtrHops msg cut off
    (∀ at_ ∈ compressedNames .soa msg off, ReadsName msg cut at_) (unpackSOA rdlen) :=
  .after fun _ _ h => by
    obtain ⟨rfl, rfl⟩ := reads_offset_iff.mp h
    exact confined_twoNames

theorem confined_unpackRP : Confined maxPtrHops msg cut off
    (∀ at_ ∈ compressedNames .rp msg off, ReadsName msg cut at_) (unpackRP rdlen) :=
  .after fun _ _ h => by
    obtain ⟨rfl, rfl⟩ := reads_offset_iff.mp h
    exact confined_twoNames

theorem confined_as {α : Type} {side : Prop} {mk : α → RData} {p : Nat → Decoder α} [KeepsMessage (p rdlen)]
    (hp : Confined maxPtrHops msg cut off side (p rdlen)) (hlookup : unpackers.lookup t = some (decodeAs mk p))
    (hside : side ↔ ∀ at_ ∈ compressedNames t msg off, ReadsName msg cut at_) :
    Confined maxPtrHops msg cut off (∀ at_ ∈ compressedNames t msg off, ReadsName msg cut at_)
      (unpackTyped t rdlen) := by
  rw [unpackTyped, hlookup]
  exact hp.before.imp hside

theorem confined_unpackTyped : Confined maxPtrHops msg cut off
    (∀ at_ ∈ compressedNames t msg off, ReadsName msg cut at_) (unpackTyped t rdlen) := by
  by_cases ht : t ∈ compressing
  · have hone : ∀ {at_}, ReadsName msg cut at_ ↔ ∀ o ∈ [at_], ReadsName msg cut o := forall_mem_singleton.symm
    simp only [compressing, mem_cons, not_mem_nil, or_false] at ht
    rcases ht with rfl | rfl | rfl | rfl | rfl | rfl | rfl
    · exact confined_as confined_unpackTarget rfl hone
    · exact confined_as confined_unpackTarget rfl hone
    · exact confined_as confined_unpackTarget rfl hone
    · exact confined_as confined_unpackTarget rfl hone
    · exact confined_as confined_unpackMX rfl hone
    · exact confined_as confined_unpackSOA rfl .rfl
    · exact confined_as confined_unpackRP rfl .rfl
  · have hnone : compressedNames t msg off = [] := by
      have hne : ∀ {t'}, t' ∈ compressing → t ≠ t' := fun hmem heq => ht (heq ▸ hmem)
      rw [compressedNames, if_neg (hne (by decide)), if_neg, if_neg ht]
      rintro (heq | heq)
      · exact hne (by decide) heq
      · exact hne (by decide) heq
    have hlocal := (local_unpackTyped t rdlen).resolve_left fun h => ht h.1
    rw [hnone]
    exact (hlocal.confined _ _ _ _).imp (by simp)

theorem RData.reads_unpack_iff {r : RData} {off' : Nat} : (unpack t rdlen).Reads maxHops msg off r off' ↔
    off + rdlen ≤ msg.length ∧ off' = off + rdlen ∧
      if rdlen = 0 then r = .unknown t [] else (unpackTyped t rdlen).Reads maxHops msg off r (off + rdlen) := by
  simp only [unpack, remaining, reads_bind_iff, reads_message_iff, reads_offset_iff, reads_failIf_iff, reads_pure_iff]
  split
  · rename_i hzero
    constructor
    · rintro ⟨_, _, ⟨_, _, ⟨rfl, rfl⟩, _, _, ⟨rfl, rfl⟩, rfl, rfl⟩, _, _, ⟨hleft, rfl⟩, hpure⟩
      obtain ⟨rfl, rfl⟩ := reads_pure_iff.mp hpure
      exact ⟨by omega, by omega, rfl⟩
    · rintro ⟨hfit, rfl, rfl⟩
      exact ⟨_, _, ⟨_, _, ⟨rfl, rfl⟩, _, _, ⟨rfl, rfl⟩, rfl, rfl⟩, (), _, ⟨by omega, rfl⟩,
        reads_pure_iff.mpr ⟨rfl, by omega⟩⟩
  · simp only [reads_bind_iff, reads_offset_iff, reads_failIf_iff, reads_pure_iff]
    constructor
    · grind
    · rintro ⟨hfit, rfl, hread⟩
      exact ⟨_, _, ⟨_, _, ⟨rfl, rfl⟩, _, _, ⟨rfl, rfl⟩, rfl, rfl⟩, (), _, ⟨by omega, rfl⟩, _, _, ⟨rfl, rfl⟩, r, _,
        hread, _, _, ⟨rfl, rfl⟩, (), _, ⟨by simp, rfl⟩, rfl, rfl⟩

instance (t : RRType) (rdlen : Nat) : KeepsMessage (RData.unpack t rdlen) := by
  dsimp only [RData.unpack, remaining]; infer_instance

theorem RData.unpack_eq_ok {r : RData} {c' : Unpacker} : unpack t rdlen maxHops ⟨msg, off⟩ = (.ok r, c') ↔
    c' = ⟨msg, off + rdlen⟩ ∧ (unpack t rdlen).Reads maxHops msg off r (off + rdlen) := by
  constructor
  · intro h
    obtain ⟨msg', off'⟩ := c'
    obtain rfl : msg' = msg := ensures_msg_eq _ r _ h
    obtain ⟨-, rfl, -⟩ := reads_unpack_iff.mp h
    exact ⟨rfl, h⟩
  · rintro ⟨rfl, h⟩
    exact h

/-- **The window of the data.** Cutting the message behind the window changes neither what `Unpack` accepts nor what it
returns, exactly if the compressed names that are read do not lead behind the window. -/
theorem RData.unpack_cut_iff (t : RRType) (msg : Bytes) (off rdlen : Nat) (hfit : off + rdlen ≤ msg.length) :
    ((∀ m r c', unpack t rdlen maxPtrHops ⟨m, off⟩ = (.ok r, c') → c'.off = off + rdlen) ∧
      ∀ r, (∃ c', unpack t rdlen maxPtrHops ⟨msg, off⟩ = (.ok r, c')) ↔
        ∃ c', unpack t rdlen maxPtrHops ⟨msg.take (off + rdlen), off⟩ = (.ok r, c')) ↔
    (rdlen ≠ 0 → (∃ r c', unpack t rdlen maxPtrHops ⟨msg, off⟩ = (.ok r, c')) →
      ∀ at_ ∈ compressedNames t msg off, ReadsName msg (off + rdlen) at_) := by
  have hcut : off + rdlen ≤ (msg.take (off + rdlen)).length := by
    rw [length_take]
    omega
  have hconfined := @confined_unpackTyped t msg off rdlen (off + rdlen)
  have hoff : ∀ m r c', unpack t rdlen maxPtrHops ⟨m, off⟩ = (.ok r, c') → c'.off = off + rdlen := by
    intro m r c' h
    rw [(unpack_eq_ok.mp h).1]
  rw [and_iff_right hoff]
  simp only [unpack_eq_ok, exists_eq_left, reads_unpack_iff, hfit, hcut, true_and]
  by_cases hzero : rdlen = 0
  · simp [hzero]
  · simp only [hzero, if_false, ne_eq, not_false_eq_true, true_implies]
    constructor
    · rintro hiff ⟨r, hr⟩
      exact (hconfined.grow _ _ ((hiff r).mp hr)).2
    · intro hside r
      refine ⟨fun hr => ?_, fun hr => (hconfined.grow _ _ hr).1⟩
      exact (hconfined.cut _ _ hr).2 (Nat.le_refl _) (hside ⟨r, hr⟩)

/-- A pointer to a label that reaches over the pointer itself and one byte behind the window. -/
theorem RData.unpack_reads_behind :
    (unpack .cname 2 maxPtrHops ⟨[2, 0xc0, 0, 0], 1⟩).1.isOk = true ∧
      (unpack .cname 2 maxPtrHops ⟨[2, 0xc0, 0, 0].take (1 + 2), 1⟩).1.isOk = false := by
  decide +kernel

theorem RData.unpack_cut_a : 0 + 4 ≤ ([1, 2, 3, 4, 5] : Bytes).length ∧
    ∀ r, (∃ c', unpack .a 4 maxPtrHops ⟨[1, 2, 3, 4, 5], 0⟩ = (.ok r, c')) ↔
      ∃ c', unpack .a 4 maxPtrHops ⟨[1, 2, 3, 4], 0⟩ = (.ok r, c') :=
  ⟨by decide, ((unpack_cut_iff .a [1, 2, 3, 4, 5] 0 4 (by decide)).mpr fun _ _ => forall_mem_nil _).2⟩

end Isolation

end Acidns
