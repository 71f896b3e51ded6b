import Acidns.Dnssec.Nsec3
import Acidns.Dnssec.SignedZone

/-!
# Zones signed with NSEC3

The same zones with hashed names: the NSEC3 records link the hashes of the signed owner names and of the
names between them and the apex to a circle. With opt-out some of these names are left out of it, and then
the records that their hashes fall behind say so.
-/

namespace Acidns

variable {nextHash : Bytes} {types : List RRType} {owner : Name} {hash : Name → Bytes}

namespace SignedZone

variable {z : SignedZone} {d e n m q w : Name}

/-- The name has an authoritative owner at or below it. -/
def Node (z : SignedZone) (n : Name) : Prop := z.apex.Encloses n ∧ ∃ m, z.Authoritative m ∧ n.Encloses m

theorem Node.of_encloses (h : z.Node n) (hm : m.Encloses n) (hapex : z.apex.Encloses m) : z.Node m := by
  grind [Node, Name.Encloses]

theorem Authoritative.node (h : z.Authoritative n) : z.Node n :=
  ⟨z.below n h.1, n, h, .refl (isValid_of_mem h.1)⟩

theorem Node.eq_of_occludes (h : z.Node n) (hd : z.Occludes d) (hdn : d.Encloses n) : n = d := by
  obtain ⟨-, m, hm, hnm⟩ := h
  obtain rfl := hm.2 d hd (hdn.trans hnm)
  exact hnm.antisymm hdn

theorem Node.encloses_delegation (h : z.Node n) (hd : z.Delegation d) (hdn : d.Encloses n) : n = d :=
  h.eq_of_occludes hd.occludes hdn

theorem Node.exists (h : z.Node n) : z.Exists n := by
  obtain ⟨-, m, hm, hnm⟩ := h
  exact ⟨m, hm.1, hnm⟩

theorem node_of_exists (hapex : z.apex.Encloses n) (hocc : ∀ d, z.Occludes d → d.Encloses n → d = n) (h : z.Exists n) :
    z.Node n := by
  grind [Occludes, reaches_iff, exists_iff_reaches, Name.Encloses, Node, Authoritative]

theorem Node.mem_owners (hclosed : ∀ m ∈ z.owners, m ≠ z.apex → ∃ p ∈ z.owners, m.parent = some p) (h : z.Node n) :
    n ∈ z.owners := by
  obtain ⟨hapex, m, hm, hnm⟩ := h
  -- go up from the owner; above the apex there is no node
  have hmem := hm.1
  clear hm
  induction hdepth : m.numLabels using Nat.strong_induction_on generalizing m with
  | h depth ih =>
    rcases (Name.encloses_iff_parent hnm.2.1).mp hnm with rfl | ⟨p, hp, hnp⟩
    · exact hmem
    · by_cases hroot : m = z.apex
      · rw [hnm.antisymm (hroot ▸ hapex)]
        exact hmem
      · obtain ⟨p', hp', hparent⟩ := hclosed m hmem hroot
        obtain rfl := Option.some.inj (hparent.symm.trans hp)
        obtain ⟨-, l, hlabels⟩ := Name.labels_of_parent hnm.2.1 hp
        refine ih p'.numLabels (hdepth ▸ ?_) p' hnp hp' rfl
        rw [Name.numLabels, Name.numLabels, hlabels]
        exact Nat.lt_succ_self _

/-- The deepest such name above another. -/
def ClosestNode (z : SignedZone) (e q : Name) : Prop :=
  e.Encloses q ∧ z.Node e ∧ ∀ n, n.Encloses q → z.Node n → n.Encloses e

/-- The zone does not have `q` or a wildcard for it, and `q` is not delegated. -/
def Missing (z : SignedZone) (q : Name) : Prop :=
  ¬z.Node q ∧ (∀ d, z.Delegation d → ¬d.Encloses q) ∧ ∀ e w, z.ClosestNode e q → IsWildcard e w → ¬z.Node w

theorem ClosestNode.unique {e' : Name} (h : z.ClosestNode e q) (h' : z.ClosestNode e' q) : e = e' :=
  (h'.2.2 e h.1 h.2.1).antisymm (h.2.2 e' h'.1 h'.2.1)

section EncloserProof

/-! A closest encloser proof: the zone has `e`, but not the name one label further down to `q`, nor the
wildcard below `e`. -/

variable {nextCloser : Name} (heq : e.Encloses q) (he : z.Node e) (hnq : nextCloser.Encloses q)
  (hlabels : nextCloser.numLabels = e.numLabels + 1) (hnext : ¬z.Node nextCloser)

include heq he hnq hlabels hnext

theorem encloses_of_encloserProof (hn : n.Encloses q) (hnode : z.Node n) : n.Encloses e := by
  have hen : e.Encloses nextCloser := heq.of_numLabels_le hnq (hlabels ▸ Nat.le_succ _)
  refine hn.of_numLabels_le heq (Nat.not_lt.mp fun hlt => hnext ?_)
  exact hnode.of_encloses (hnq.of_numLabels_le hn (hlabels ▸ hlt)) (he.1.trans hen)

theorem closestNode_of_encloserProof : z.ClosestNode e q :=
  ⟨heq, he, fun _ hn hnode => encloses_of_encloserProof heq he hnq hlabels hnext hn hnode⟩

theorem not_node_of_encloserProof : ¬z.Node q := by
  have hen : e.Encloses nextCloser := heq.of_numLabels_le hnq (hlabels ▸ Nat.le_succ _)
  exact fun hq => hnext (hq.of_encloses hnq (he.1.trans hen))

theorem missing_of_encloserProof (hcut : ¬z.Delegation e) (hw : IsWildcard e w) (hnone : ¬z.Node w) : z.Missing q := by
  have hclosest := closestNode_of_encloserProof heq he hnq hlabels hnext
  refine ⟨not_node_of_encloserProof heq he hnq hlabels hnext, ?_, ?_⟩
  · intro d hd hdq
    have hde := encloses_of_encloserProof heq he hnq hlabels hnext hdq hd.1.node
    exact hcut (he.encloses_delegation hd hde ▸ hd)
  · intro e' w' hclosest' hw'
    obtain rfl := hclosest.unique hclosest'
    rwa [hw'.unique hw]

theorem nameError_iff_of_encloserProof (hw : IsWildcard e w) (hnone : ¬z.Node w) : z.NameError q ↔ ¬z.Occludes e := by
  refine ⟨fun h hocc => h.1.2 e hocc heq, fun hfree => ?_⟩
  have hocc : ∀ d, z.Occludes d → ¬d.Encloses q := by
    intro d hd hdq
    obtain ⟨d', hd', hauth, hdq'⟩ := hd.exists_authoritative hdq
    have hde := encloses_of_encloserProof heq he hnq hlabels hnext hdq' hauth.node
    exact hfree (he.eq_of_occludes hd' hde ▸ hd')
  have hapex : z.apex.Encloses q := he.1.trans heq
  have hnode : ∀ n, z.apex.Encloses n → n.Encloses q → z.Exists n → z.Node n := fun n hn hnq h =>
    node_of_exists hn (fun d hd hdn => absurd (hdn.trans hnq) (hocc d hd)) h
  refine ⟨⟨fun h => not_node_of_encloserProof heq he hnq hlabels hnext (hnode q hapex (.refl heq.2.1) h), hocc⟩, ?_⟩
  intro e' w' hclosest hw' hexists
  -- the closest encloser that exists is the one of the proof
  have hee' : e.Encloses e' := hclosest.2.2 e heq he.exists
  have he' := hnode e' (he.1.trans hee') hclosest.1 hclosest.2.1
  obtain rfl := hee'.antisymm (encloses_of_encloserProof heq he hnq hlabels hnext hclosest.1 he')
  obtain rfl := hw'.unique hw
  have hew := hw.encloses_self heq.1
  refine hnone (node_of_exists (he.1.trans hew) (fun d hd hdw => ?_) hexists)
  by_contra hne
  exact hocc d hd ((hw.encloses heq.1 hdw hne).trans heq)

end EncloserProof

end SignedZone

/-! ### The chain of hashes -/

/-- How a zone is hashed: the names in the chain, and which of their records have opt-out. -/
structure Hashing (hash : Name → Bytes) (z : SignedZone) where
  hashed : Set Name
  optOut : Name → Prop
  node : ∀ n ∈ hashed, z.Node n
  /-- The hash of a name that is left out falls behind a record with opt-out. -/
  left_out : ∀ n, z.Node n → n ∉ hashed → ∀ owner ∈ hashed, ∀ next,
    Chain.Link (hash '' hashed) (hash owner) next → Chain.Covers (hash owner) next (hash n) → optOut owner

/-- The record is one of the zone's NSEC3 chain. -/
structure Hashing.IsNSEC3 {hash : Name → Bytes} {z : SignedZone} (H : Hashing hash z) (owner : Name) (nextHash : Bytes)
    (types : List RRType) (optOut : Bool) : Prop where
  mem : owner ∈ H.hashed
  link : Chain.Link (hash '' H.hashed) (hash owner) nextHash
  types : ∀ t, t ∈ types ↔ owner ∈ z.owners ∧ t ∈ z.types owner
  optOut : optOut = true ↔ H.optOut owner

variable {z : SignedZone} {optOut : Bool}

theorem Hashing.IsNSEC3.not_node {H : Hashing hash z} {n : Name}
    (h : H.IsNSEC3 owner nextHash types false)
    (hcov : Chain.Covers (hash owner) nextHash (hash n)) : ¬z.Node n := by
  intro hnode
  by_cases hmem : n ∈ H.hashed
  · exact h.link.not_mem hcov ⟨n, hmem, rfl⟩
  · exact Bool.false_ne_true (h.optOut.mpr (H.left_out n hnode hmem owner h.mem nextHash h.link hcov))

theorem Hashing.IsNSEC3.types_of_delegation {H : Hashing hash z}
    (h : H.IsNSEC3 owner nextHash types optOut)
    (hd : z.Delegation owner) : .ns ∈ types ∧ .soa ∉ types := by
  refine ⟨(h.types .ns).mpr ⟨hd.1.1, hd.2.2⟩, fun hsoa => hd.2.1 ?_⟩
  exact (z.soa owner hd.1.1).mp ((h.types .soa).mp hsoa).2

theorem Hashing.IsNSEC3.occludes_iff {H : Hashing hash z}
    (h : H.IsNSEC3 owner nextHash types optOut) :
    z.Occludes owner ↔ .ns ∈ types ∧ .soa ∉ types ∨ .dname ∈ types := by
  rw [h.types, h.types, h.types, SignedZone.Occludes]
  by_cases hmem : owner ∈ z.owners
  · rw [z.soa owner hmem]
    tauto
  · tauto

/-- The chain without opt-out. -/
def Hashing.full (hash : Name → Bytes) (z : SignedZone) : Hashing hash z where
  hashed := { n | z.Node n }
  optOut _ := False
  node _ hn := hn
  left_out _ hn hmem := absurd hn hmem

theorem Hashing.full_isNSEC3 {next : Name}
    (hclosed : ∀ m ∈ z.owners, m ≠ z.apex → ∃ p ∈ z.owners, m.parent = some p) (howner : z.Authoritative owner)
    (hnext : z.Authoritative next)
    (hgap : ∀ n ∈ z.owners, hashIntervalContains (hash owner) (hash next) (hash n) = false)
    (htypes : ∀ t, t ∈ types ↔ t ∈ z.types owner) : (Hashing.full hash z).IsNSEC3 owner (hash next) types false := by
  refine ⟨howner.node, ⟨⟨owner, howner.node, rfl⟩, ⟨next, hnext.node, rfl⟩, ?_⟩, ?_, ?_⟩
  · rintro _ ⟨n, hn, rfl⟩ hcov
    rw [← hashIntervalContains_iff, hgap n (SignedZone.Node.mem_owners hclosed hn)] at hcov
    exact Bool.false_ne_true hcov
  · exact fun t => (htypes t).trans (and_iff_right howner.1).symm
  · exact iff_of_false Bool.false_ne_true not_false

/-- No two valid names hash alike. -/
def CollisionFree (hash : Name → Bytes) : Prop :=
  ∀ a b : Name, a.isValid = true → b.isValid = true → hash a = hash b → a = b

theorem ZoneTree.eq_of_apex {tree : ZoneTree} {c : SignedZone} (hz : z ∈ tree.zones) (hc : c ∈ tree.zones)
    (h : z.apex = c.apex) : z = c := by
  by_contra hne
  have hrefl : z.apex.Encloses c.apex := h ▸ .refl (SignedZone.isValid_of_mem z.apex_mem)
  obtain ⟨d, hd, hdc⟩ := tree.cut z hz c hc hne hrefl
  exact hd.2.1 (hdc.antisymm (h ▸ z.below d hd.1.1)|>.trans h.symm)

end Acidns
