import Acidns.Wire.Repack

/-!
# The size of a packed message

The OPT pseudo-record stands at the end of a message and is not compressed. So the size of a message is that
of its OPT pseudo-record and of the rest, and another OPT pseudo-record leaves the rest as it is but for the
counts in the header.
-/

namespace Acidns

open Octets (bigEndian)

/-! ### The OPT pseudo-record -/

/-- The length of the options, each with its four-byte head. -/
def EDNS.optSize (e : EDNS) : Nat := (e.opts.map fun o => 4 + o.data.length).sum

def EDNS.size (e : EDNS) : Nat := 11 + e.optSize

/-- The OPT record byte by byte. -/
def EDNS.bytes (e : EDNS) : Bytes :=
  e.head.flatMap PackOp.bytes ++ bigEndian 2 e.optSize ++ e.optOps.flatMap PackOp.bytes

def ednsBytes : Option EDNS → Bytes
  | some e => e.bytes
  | none => []

def ednsSize : Option EDNS → Nat
  | some e => e.size
  | none => 0

@[simp] theorem ednsSize_some (e : EDNS) : ednsSize (some e) = e.size := rfl

section Edns

variable {p q : Packer} {edns : Option EDNS}

theorem EDNS.length_optOps (e : EDNS) : (e.optOps.flatMap PackOp.bytes).length = e.optSize := by
  rw [optOps, optSize, List.flatMap_assoc, List.length_flatMap]
  congr 2
  funext o
  simp [EDNSOption.ops, PackOp.bytes]
  omega

theorem EDNS.length_bytes (e : EDNS) : e.bytes.length = e.size := by
  have hhead : (e.head.flatMap PackOp.bytes).length = 9 := by simp [head, PackOp.bytes]
  rw [bytes, List.length_append, List.length_append, e.length_optOps, hhead, Octets.length_bigEndian, size]

@[simp] theorem length_ednsBytes (edns : Option EDNS) : (ednsBytes edns).length = ednsSize edns := by
  cases edns with
  | none => rfl
  | some e => exact e.length_bytes

theorem packFramed_plain {tooLarge : WireError} {head body : List PackOp} (hhead : ∀ op ∈ head, op.compressed = none)
    (hbody : ∀ op ∈ body, op.compressed = none) (p : Packer) :
    packFramed tooLarge p head body =
      if (body.flatMap PackOp.bytes).length > 0xffff then .error tooLarge
      else .ok (p.raw (head.flatMap PackOp.bytes ++ bigEndian 2 (body.flatMap PackOp.bytes).length ++
        body.flatMap PackOp.bytes)) := by
  have hrest : ((p.run head).uint16 0).run body =
      ⟨((p.run head).uint16 0).buf ++ body.flatMap PackOp.bytes, p.comp⟩ := by
    rw [Packer.run_plain hbody, Packer.run_plain hhead]
    rfl
  exact packFramed_of_run (Packer.run_plain hhead p) hrest

theorem packEdns_eq_ok :
    Message.packEdns p edns = .ok q ↔ (∀ e ∈ edns, e.optSize ≤ 0xffff) ∧ q = p.raw (ednsBytes edns) := by
  cases edns with
  | none =>
    constructor
    · intro h
      cases h
      exact ⟨by simp, by simp [Packer.raw, ednsBytes]⟩
    · rintro ⟨-, rfl⟩
      simp [Message.packEdns, Packer.raw, ednsBytes]
  | some e =>
    have hhead : ∀ op ∈ e.head, op.compressed = none := by simp [EDNS.head, PackOp.compressed]
    have hopts : ∀ op ∈ e.optOps, op.compressed = none := by
      intro op hop
      obtain ⟨o, -, hop⟩ := List.mem_flatMap.mp hop
      simp only [EDNSOption.ops, List.mem_cons, List.not_mem_nil, or_false] at hop
      rcases hop with rfl | rfl | rfl <;> rfl
    rw [Message.packEdns, packOPT, packFramed_plain hhead hopts, e.length_optOps]
    constructor
    · intro h
      split at h
      · cases h
      · rename_i hfit
        cases h
        refine ⟨fun e' he' => ?_, rfl⟩
        cases he'
        exact Nat.not_lt.mp hfit
    · rintro ⟨hfit, rfl⟩
      rw [if_neg (Nat.not_lt.mpr (hfit e rfl))]
      rfl

end Edns

/-! ### Messages -/

namespace Message

variable {m : Message} {buf : Bytes}

/-- **The parts of a packed message.** With another OPT pseudo-record it is packed exactly if it is not too long, with
the same bytes between the header and the pseudo-record. -/
theorem pack_edns_iff (h : m.pack = .ok buf) : ∃ out : Bytes, ∀ edns buf', { m with edns }.pack = .ok buf' ↔
    12 + (m.questionBytes ++ out).length + ednsSize edns ≤ 0xffff ∧
      buf' = { m with edns }.header ++ (m.questionBytes ++ out) ++ ednsBytes edns := by
  obtain ⟨hcounts, p, -, hrecords, -⟩ := pack_eq_ok.mp h
  obtain ⟨out, comp, rfl, -⟩ := packRecords_congr rfl rfl hrecords
  refine ⟨out, fun edns buf' => ?_⟩
  -- the records come out the same behind the new header
  obtain ⟨out', comp', hsame, hrecords'⟩ := @packRecords_congr ⟨m.header ++ m.questionBytes, []⟩
    ⟨{ m with edns }.header ++ m.questionBytes, []⟩ _ _ (by simp) rfl hrecords
  obtain rfl : out = out' := List.append_cancel_left (congrArg Packer.buf hsame)
  have hlength : ∀ p : Packer, (p.raw (ednsBytes edns)).buf.length = p.buf.length + ednsSize edns := by
    simp [Packer.raw]
  constructor
  · intro hpack
    obtain ⟨-, p', q', hrun, hedns, hmax, rfl⟩ := pack_eq_ok.mp hpack
    cases hrecords'.symm.trans hrun
    obtain ⟨-, rfl⟩ := packEdns_eq_ok.mp hedns
    rw [hlength] at hmax
    refine ⟨?_, by simp [Packer.raw]⟩
    simp only [List.length_append, length_header] at hmax ⊢
    omega
  · rintro ⟨hmax, rfl⟩
    have hfits : ∀ e ∈ edns, e.optSize ≤ 0xffff := by
      rintro e rfl
      rw [ednsSize, EDNS.size] at hmax
      omega
    refine pack_eq_ok.mpr ⟨hcounts, _, _, hrecords', packEdns_eq_ok.mpr ⟨hfits, rfl⟩, ?_, by simp [Packer.raw]⟩
    rw [hlength]
    simp only [List.length_append, length_header] at hmax ⊢
    omega

theorem pack_parts (h : m.pack = .ok buf) : ∃ out, 12 + (m.questionBytes ++ out).length + ednsSize m.edns ≤ 0xffff ∧
    buf = m.header ++ (m.questionBytes ++ out) ++ ednsBytes m.edns := by
  obtain ⟨out, hparts⟩ := pack_edns_iff h
  exact ⟨out, (hparts m.edns buf).mp h⟩

theorem pack_of_no_records (h : m.records = []) : m.pack = .ok buf ↔ m.questions.length ≤ 0xffff ∧
    12 + m.questionBytes.length + ednsSize m.edns ≤ 0xffff ∧ buf = m.header ++ m.questionBytes ++ ednsBytes m.edns := by
  have hcounts : m.answers.length ≤ 0xffff ∧ m.authorities.length ≤ 0xffff ∧ m.additionals.length ≤ 0xffff := by
    simp only [records, List.append_eq_nil_iff] at h
    simp [h]
  rw [pack_eq_ok, h]
  constructor
  · rintro ⟨⟨hquestions, -⟩, p, q, hrun, hedns, hmax, rfl⟩
    cases hrun
    obtain ⟨-, rfl⟩ := packEdns_eq_ok.mp hedns
    refine ⟨hquestions, ?_, rfl⟩
    simpa [Packer.raw, Nat.add_assoc] using hmax
  · rintro ⟨hquestions, hmax, rfl⟩
    have hfits : ∀ e ∈ m.edns, e.optSize ≤ 0xffff := by
      intro e he
      rw [he, ednsSize, EDNS.size] at hmax
      omega
    refine ⟨⟨hquestions, hcounts⟩, _, _, rfl, packEdns_eq_ok.mpr ⟨hfits, rfl⟩, ?_, rfl⟩
    simpa [Packer.raw, Nat.add_assoc] using hmax

end Message

end Acidns
