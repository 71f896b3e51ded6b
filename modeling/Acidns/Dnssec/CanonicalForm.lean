import Acidns.Dnssec.Signature
import Acidns.Wire.Pointers
import Acidns.Wire.Text

/-!
# The canonical form

`dnssec/canonical.go`. Names in canonical data stand in full. The form of a type that is not listed there is what its
`Pack` method writes into a packer of its own, and one of these methods writes two names. The bytes that a signature
covers have the data in order, so neither the order of the records nor their TTLs matter; a record that is there twice
is written twice.
-/

namespace Acidns.Dnssec

open List

/-! ### Names in the data -/

/-- `canonicalRData` of NS, CNAME and PTR data: the target as the constructor took it. -/
def canonicalTarget (target : RawName) : Bytes := if target.isValid then target.wire else [0]

theorem canonicalRData_target (n : Name) : canonicalRData (.ns n) = canonicalTarget ⟨n.wire⟩ := by
  rw [canonicalRData, canonicalTarget, Name.appendWire]
  split <;> simp_all [RawName.isValid, Name.isValid]

open Octets (bigEndian)

/-- The signed form of a set from the canonical rdata of its records. -/
def signedBody (owner : Name) (class_ : RRClass) (t : RRType) (rrsig : RRSIG) (rdatas : List Bytes) : Bytes :=
  (rdatas.insertionSort fun a b => compareBytes a b ≠ .gt).flatMap fun rd =>
    canonicalOwner owner rrsig ++ bigEndian 2 t.toNat ++ bigEndian 2 class_.toNat ++
      bigEndian 4 rrsig.origTTL.toNat ++ bigEndian 2 rd.length ++ rd

section Signed

variable {owner : Name} {class_ : RRClass} {t : RRType} {rrsig : RRSIG} {rdatas rdatas' : List Bytes}

theorem signedBody_perm (h : rdatas.Perm rdatas') :
    signedBody owner class_ t rrsig rdatas = signedBody owner class_ t rrsig rdatas' := by
  have hle : ∀ a b : Bytes, compareBytes a b ≠ .gt ↔ a ≤ b := fun a b => (compares_compareBytes a b).ne_gt
  have : Std.Total fun a b : Bytes => compareBytes a b ≠ .gt := ⟨fun a b => by simpa only [hle] using le_total a b⟩
  have : IsTrans Bytes fun a b => compareBytes a b ≠ .gt := ⟨fun a b c => by simpa only [hle] using le_trans⟩
  have hsorted := ((perm_insertionSort (fun a b => compareBytes a b ≠ .gt) rdatas).trans h).trans
    (perm_insertionSort (fun a b => compareBytes a b ≠ .gt) rdatas').symm
  rw [signedBody, hsorted.eq_of_pairwise (fun a b _ _ hab hba => le_antisymm ((hle a b).mp hab) ((hle b a).mp hba))
    (pairwise_insertionSort _ _) (pairwise_insertionSort _ _)]
  rfl

theorem length_signedBody : (signedBody owner class_ t rrsig rdatas).length =
    (rdatas.map fun rd => (canonicalOwner owner rrsig).length + 10 + rd.length).sum := by
  rw [signedBody, ((perm_insertionSort _ rdatas).flatMap_right _).length_eq, length_flatMap]
  refine congrArg List.sum (map_congr_left fun rd _ => ?_)
  simp only [length_append, Octets.length_bigEndian]

/-- A record up to its TTL. -/
def untimed (r : Record) : Name × RRClass × RData := (r.name, r.class_, r.rd)

theorem signedData_eq {set : List Record} (hne : set ≠ [])
    (hset : ∀ r ∈ set, r.name = owner ∧ r.class_ = class_ ∧ r.type = t) :
    signedData set rrsig = .ok (rrsigSignedHeader rrsig ++
      signedBody owner class_ t rrsig (set.map fun r => canonicalRData r.rd)) := by
  cases set with
  | nil => exact absurd rfl hne
  | cons first rest =>
    obtain ⟨rfl, rfl, rfl⟩ := hset first (.head _)
    rfl

/-- **What a signature covers.** Neither the order of the records nor their TTLs enter it. A record that is there once
more does. -/
theorem signedData_eq_iff {set set' extra : List Record} (rrsig : RRSIG) (hne : set ≠ [])
    (hset : ∀ a ∈ set, ∀ b ∈ set, a.name = b.name ∧ a.class_ = b.class_ ∧ a.type = b.type)
    (hextra : ∀ e ∈ extra, ∃ a ∈ set, untimed e = untimed a)
    (hperm : (set'.map untimed).Perm ((set ++ extra).map untimed)) :
    signedData set' rrsig = signedData set rrsig ↔ extra = [] := by
  obtain ⟨first, hfirst⟩ := exists_mem_of_ne_nil set hne
  have hmem : ∀ r ∈ set', r.name = first.name ∧ r.class_ = first.class_ ∧ r.type = first.type := by
    intro r hr
    obtain ⟨a, ha, heq⟩ : ∃ a ∈ set, untimed r = untimed a := by
      obtain ⟨b, hb, heq⟩ := mem_map.mp (hperm.subset (mem_map_of_mem hr))
      rcases mem_append.mp hb with hb | hb
      · exact ⟨b, hb, heq.symm⟩
      · obtain ⟨a, ha, heq'⟩ := hextra b hb
        exact ⟨a, ha, heq.symm.trans heq'⟩
    have hsame := hset a ha first hfirst
    simp only [untimed, Prod.mk.injEq] at heq
    rwa [heq.1, heq.2.1, Record.type, heq.2.2]
  have hdata : (set'.map fun r => canonicalRData r.rd).Perm ((set ++ extra).map fun r => canonicalRData r.rd) := by
    simpa [untimed, Function.comp_def] using hperm.map fun r => canonicalRData r.2.2
  have hne' : set' ≠ [] := by
    rintro rfl
    exact hne (append_eq_nil_iff.mp (map_eq_nil_iff.mp hperm.nil_eq.symm)).1
  rw [signedData_eq hne' hmem, signedData_eq hne fun r hr => hset r hr first hfirst, signedBody_perm hdata]
  constructor
  · intro h
    have hlen := congrArg List.length (append_cancel_left (Except.ok.inj h))
    rw [length_signedBody, length_signedBody, map_append, map_append, sum_append] at hlen
    cases extra with
    | nil => rfl
    | cons e extra =>
      simp only [map_cons, sum_cons] at hlen
      omega
  · rintro rfl
    rw [append_nil]

end Signed

def sampleNSAP (data : UInt8) (ttl : Duration) : Record := ⟨.root, 1, ttl, .nsap [data]⟩

def sampleRRSIG : RRSIG := ⟨.nsap, 8, 0, 60, 0, 0, 0, .root, []⟩

theorem signedData_ttl : signedData [sampleNSAP 8 9, sampleNSAP 7 3] sampleRRSIG =
    signedData [sampleNSAP 7 0, sampleNSAP 8 0] sampleRRSIG :=
  (@signedData_eq_iff [sampleNSAP 7 0, sampleNSAP 8 0] [sampleNSAP 8 9, sampleNSAP 7 3] [] sampleRRSIG
    (cons_ne_nil _ _) (by simp [sampleNSAP, Record.type, RData.type]) (forall_mem_nil _) (.swap _ _ _)).mpr rfl

theorem signedData_twice :
    signedData [sampleNSAP 7 0, sampleNSAP 7 0] sampleRRSIG ≠ signedData [sampleNSAP 7 0] sampleRRSIG := by
  decide

end Acidns.Dnssec
