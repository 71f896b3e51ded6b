import Acidns.Dnssec.NameError
import Acidns.Forward.Basic

/-!
# Honest responses behind the bailiwick filter

What the filter of `forward/bailiwick.go` leaves of a response that consists of zone data: the records on the way
from the queried name over aliases to the final name, and what the zone of the final name says about it.

The filter knows nothing but the queried name. It follows CNAME records and no DNAME records, and of the authority
section it keeps what is owned at or above the queried name, except by the root. The records of a denial are owned
by the apex of the final name's zone and by the names next to the one that is missing, so they may go.
-/

namespace Acidns.Forward

open List

open SignedZone (IsWildcard)
open Walker (nsecs asNSEC3 nsec3OwnerHash IsNSEC3Record)
open Recursive (cnameTarget)

/-! ### Zone data -/

inductive Signing where
  | unsigned
  | nsec
  | nsec3 (params : NSEC3Params)

/-- Zones with their data and the way each is signed. -/
structure HonestZones where
  tree : ZoneTree
  data : SignedZone → Set Record
  signing : SignedZone → Signing
  sha1 : Bytes → Bytes
  owned : ∀ z ∈ tree.zones, ∀ r ∈ data z, r.name ∈ z.owners ∧ r.type ∈ z.types r.name

def dnameTarget (r : Record) : Option Name :=
  match r.rd with
  | .dname target => some target
  | _ => none

def CoversType (r : Record) (t : RRType) : Prop := ∃ sig, asRRSIG r = some sig ∧ sig.typeCovered = t

/-- A name below `d` and the name that takes its place below `target`. -/
def Redirects (d target n next : Name) : Prop :=
  next.isValid = true ∧ ∃ front, n.labels = front ++ d.labels ∧ next.labels = front ++ target.labels

namespace HonestZones

variable (zs : HonestZones) (z : SignedZone)

/-- The zone has the record at the name, or by wildcard. -/
def Yields (n : Name) (r : Record) : Prop :=
  r.name = n ∧ (r ∈ zs.data z ∨
    ∃ e w r', z.Absent n ∧ z.ClosestEncloser e n ∧ IsWildcard e w ∧ r' ∈ zs.data z ∧ r'.name = w ∧
      r = { r' with name := n })

/-- The names from a name to the final one, with the records; a DNAME record comes with a CNAME record made from it. -/
inductive Aliases : Name → List Name → List Record → Name → Prop
  | done (n : Name) : Aliases n [n] [] n
  | cname {z : SignedZone} {n target final : Name} {names : List Name} {r : Record} {sigs rest : List Record}
      (hz : zs.tree.Authority z n) (hr : zs.Yields z n r) (htarget : cnameTarget r = some target)
      (hsigs : ∀ s ∈ sigs, zs.Yields z n s ∧ CoversType s .cname) (hrest : Aliases target names rest final) :
      Aliases n (n :: names) (r :: sigs ++ rest) final
  | dname {z : SignedZone} {n target next final : Name} {names : List Name} {r synthesized : Record}
      {sigs rest : List Record} (hz : zs.tree.Authority z n) (hr : r ∈ zs.data z) (htarget : dnameTarget r = some target)
      (habove : r.name.Encloses n) (hne : r.name ≠ n)
      (hsigs : ∀ s ∈ sigs, s ∈ zs.data z ∧ s.name = r.name ∧ CoversType s .dname)
      (hname : synthesized.name = n) (hnext : cnameTarget synthesized = some next)
      (hredirects : Redirects r.name target n next) (hrest : Aliases next names rest final) :
      Aliases n (n :: names) (r :: sigs ++ synthesized :: rest) final

inductive Vouched (authorities : List Record) : Record → Prop
  | soa {r : Record} (hr : r ∈ zs.data z) (hname : r.name = z.apex) (htype : r.type = .soa) : Vouched authorities r
  | nsec {r : Record} {nsec : NSEC} (hsigning : zs.signing z = .nsec) (hnsec : asNSEC r = some nsec)
      (hchain : z.IsNSEC r.name nsec) : Vouched authorities r
  | nsec3 {r : Record} {params : NSEC3Params} (hsigning : zs.signing z = .nsec3 params)
      (hchain : IsNSEC3Record zs.sha1 params z r) (hname : r.name.parent = some z.apex) : Vouched authorities r
  | rrsig {r r' : Record} (hsigning : zs.signing z ≠ .unsigned) (hr' : r' ∈ authorities) (hset : asRRSIG r' = none)
      (hname : r.name = r'.name) (hcovers : CoversType r r'.type) : Vouched authorities r

def Matches (params : NSEC3Params) (records : List Record) (n : Name) (test : List RRType → Prop) : Prop :=
  ∃ r ∈ records, ∃ n3, asNSEC3 r = some n3 ∧ nsec3OwnerHash r.name = some (params.hash zs.sha1 n) ∧ test n3.types

def CoversHash (params : NSEC3Params) (records : List Record) (n : Name) : Prop :=
  ∃ r ∈ records, ∃ n3 owner, asNSEC3 r = some n3 ∧ nsec3OwnerHash r.name = some owner ∧
    hashIntervalContains owner n3.nextOwner (params.hash zs.sha1 n) = true

/-- The NSEC3 records at the name; or at its closest encloser, with those that cover the next closer name and the
wildcard. -/
inductive HashedProof (params : NSEC3Params) (n : Name) (qtype : RRType) (records : List Record) : Prop
  | noData (h : zs.Matches params records n fun types => qtype ∉ types ∧ .cname ∉ types)
  | encloser {e next w : Name} (hclosest : z.ClosestNode e n) (he : zs.Matches params records e fun _ => True)
      (hbelow : next.Encloses n) (hlabels : next.numLabels = e.numLabels + 1) (hnext : zs.CoversHash params records next)
      (hwildcard : IsWildcard e w)
      (h : zs.CoversHash params records w ∨ zs.Matches params records w fun types => qtype ∉ types ∧ .cname ∉ types)

def Denies (n : Name) (qtype : RRType) (authorities : List Record) : Prop :=
  (∃ r ∈ authorities, r ∈ zs.data z ∧ r.name = z.apex ∧ r.type = .soa) ∧
    match zs.signing z with
    | .unsigned => True
    | .nsec => z.NoDataProof n qtype (nsecs authorities) ∨ z.NameError n ∧ z.NameErrorProof n (nsecs authorities)
    | .nsec3 params => zs.HashedProof z params n qtype authorities

/-- A response of the aliases to the final name, the records of its zone for it, and what the zone says about it. -/
structure HonestResponse (qname : Name) (qtype : RRType) (names : List Name) (final : Name) (resp : Message) :
    Prop where
  authority : zs.tree.Authority z final
  answers : ∃ aliases found, zs.Aliases qname names aliases final ∧
    (∀ r ∈ found, zs.Yields z final r ∧ (r.type = qtype ∨ CoversType r qtype)) ∧
    (∀ r, r ∈ resp.answers ↔ r ∈ aliases ∨ r ∈ found) ∧
    (found = [] → zs.Denies z final qtype resp.authorities)
  authorities : ∀ r ∈ resp.authorities, zs.Vouched z resp.authorities r

end HonestZones

/-! ### The chain of names -/

section Aliases

variable {zs : HonestZones} {n final m : Name} {names : List Name} {records answers : List Record} {start : Bytes}
  {r : Record}

theorem HonestZones.Aliases.mem_self (h : zs.Aliases n names records final) : n ∈ names := by
  cases h with
  | done n => exact mem_singleton_self n
  | cname => exact .head _
  | dname => exact .head _

theorem HonestZones.Aliases.mem_final (h : zs.Aliases n names records final) : final ∈ names := by
  induction h with
  | done n => exact mem_singleton_self n
  | cname _ _ _ _ _ ih => exact .tail _ ih
  | dname _ _ _ _ _ _ _ _ _ _ ih => exact .tail _ ih

theorem HonestZones.Aliases.final_eq (h : zs.Aliases n [n] records final) : final = n := by
  cases h with
  | done n => rfl
  | cname _ _ _ _ hrest => exact absurd hrest.mem_self not_mem_nil
  | dname _ _ _ _ _ _ _ _ _ hrest => exact absurd hrest.mem_self not_mem_nil

theorem HonestZones.Aliases.reaches (h : zs.Aliases n names records final) (hsub : ∀ r ∈ records, r ∈ answers)
    (hn : Recursive.Reaches answers start (nameKey n)) : ∀ m ∈ names, Recursive.Reaches answers start (nameKey m) := by
  induction h with
  | done n => exact forall_mem_singleton.mpr hn
  | cname hz hr htarget hsigs hrest ih =>
    refine forall_mem_cons.mpr ⟨hn, ih (fun r hr => hsub r (mem_append_right _ hr)) ?_⟩
    exact .step (hr.1 ▸ hn) (hsub _ (.head _)) htarget
  | dname hz hr htarget habove hne hsigs hname hnext hredirects hrest ih =>
    -- the CNAME record made from the DNAME record leads on
    refine forall_mem_cons.mpr ⟨hn, ih (fun r hr => hsub r ?_) ?_⟩
    · exact mem_append_right _ (.tail _ hr)
    · exact .step (hname ▸ hn) (hsub _ (mem_append_right _ (.head _))) hnext

def Redirection (r : Record) : Prop := (dnameTarget r).isSome = true ∨ CoversType r .dname

theorem HonestZones.Aliases.owner (h : zs.Aliases n names records final) :
    ∀ r ∈ records, r.name ∈ names ∨ Redirection r := by
  induction h with
  | done n => exact forall_mem_nil _
  | cname hz hr htarget hsigs hrest ih =>
    intro r' hr'
    rcases mem_append.mp hr' with hhere | hthere
    · rcases mem_cons.mp hhere with rfl | hsig
      · exact .inl (hr.1 ▸ (.head _))
      · exact .inl ((hsigs r' hsig).1.1 ▸ (.head _))
    · exact (ih r' hthere).imp_left (mem_cons_of_mem _)
  | dname hz hr htarget habove hne hsigs hname hnext hredirects hrest ih =>
    intro r' hr'
    rcases mem_append.mp hr' with hhere | hthere
    · rcases mem_cons.mp hhere with rfl | hsig
      · exact .inr (.inl (by rw [htarget]; rfl))
      · exact .inr (.inr (hsigs r' hsig).2.2)
    · grind

end Aliases

/-! ### What the filter leaves -/

section Filter

variable {zs : HonestZones} {z : SignedZone} {qname final : Name} {qtype : RRType} {names : List Name} {resp : Message}
  {r : Record}

theorem mem_answers_filterBailiwick : r ∈ (filterBailiwick qname resp).answers ↔
    r ∈ resp.answers ∧ Recursive.Reaches resp.answers (nameKey qname) (nameKey r.name) := by
  refine mem_filter.trans (and_congr_right fun _ => ?_)
  rw [decide_eq_true_eq, Recursive.mem_cnameChain]
  rfl

theorem mem_authorities_filterBailiwick : r ∈ (filterBailiwick qname resp).authorities ↔
    r ∈ resp.authorities ∧ r.name.Encloses qname ∧ (r.name = .root → qname = .root) := by
  have hroot : ∀ n : Name, n.isRoot = true ↔ n = .root := fun n => Name.equal_iff (o := .root)
  refine mem_filter.trans (and_congr_right fun _ => ?_)
  rw [keepAuthority, Bool.and_eq_true, isAtOrAbove, Recursive.inBailiwick_iff, ← hroot, ← hroot]
  refine and_congr_right fun _ => ?_
  cases r.name.isRoot <;> cases qname.isRoot <;> simp

/-! ### A redirection to a missing name -/

namespace RedirectedSample

open ChainWalker.SignedSample (record sigOf)

def nameC : Name := ⟨[1, 0x63, 0], .inr (by decide)⟩
def nameD : Name := ⟨[1, 0x64, 0], .inr (by decide)⟩
def nameCD : Name := ⟨[1, 0x63, 1, 0x64, 0], .inr (by decide)⟩
def star : Name := ⟨[1, 0x2a, 0], .inr (by decide)⟩

def typesOf (n : Name) : List RRType :=
  if n = .root then [.ns, .soa, .rrsig, .nsec, .dnskey] else if n = nameD then [.dname, .rrsig, .nsec]
  else [.a, .rrsig, .nsec]

/-- The root with an address at `b.`; the names below `d.` are redirected to the root. -/
def zone : SignedZone where
  apex := .root
  owners := {.root, Name.Short.b, nameD}
  types n := (typesOf n).toFinset
  apex_mem := by decide
  below := by decide
  soa := by decide

def tree : ZoneTree where
  zones := {zone}
  cut := by
    rintro z rfl c rfl hne
    exact absurd rfl hne

def soa : Record := record .root (.soa ⟨.root, .root, 1, 60 * second, 60 * second, 60 * second, 60 * second⟩)

def soaSig : Record :=
  record .root (.rrsig (sigOf .soa 0 .root 0xb7304517aea25a107e60dfef056da6a40e6177e6e7cbb9124279b82737e8515f
    0x017a934b1410e2b6fb8f7a2542535dbd56d08350b270b2fc05fdd001e76d3306))

def redirection : Record := record nameD (.dname .root)

def redirectionSig : Record :=
  record nameD (.rrsig (sigOf .dname 1 .root 0x77369e9574dd01178520094770dd5cae30001bcd614c2c2146f38f74a680b415
    0xd5473f45132af419440e16a11e64772c4f481a7c05935fe709a39c7410b7720b))

def synthesized : Record := record nameCD (.cname nameC)

def nsecRoot : NSEC := ⟨Name.Short.b, typesOf .root⟩
def nsecB : NSEC := ⟨nameD, typesOf Name.Short.b⟩

def rootSig : Record :=
  record .root (.rrsig (sigOf .nsec 0 .root 0x4b2d7d577946a92af9f1735da106dbb2f90a05fa08ed3f63e4a1426a6eb5d971
    0x19a0fd0b171c77f367088a78a586baa17d030ba03f010a029e8f63d178794101))

def bSig : Record :=
  record Name.Short.b (.rrsig (sigOf .nsec 1 .root 0x82a81c07f38ef01e7441225201bf5f120674e8764427cd8040cb2c153e2fb795
    0xbd11025be67ce31e64574812b99438ac6144d9fb52397438122773e660e7000e))

def zones : HonestZones where
  tree := tree
  data _ := {r | r ∈ [soa, soaSig, redirection, redirectionSig]}
  signing _ := .nsec
  sha1 := Walker.HashedSample.sha1
  owned := by
    have hall : ∀ r ∈ [soa, soaSig, redirection, redirectionSig], r.name ∈ zone.owners ∧ r.type ∈ zone.types r.name := by
      decide
    rintro z rfl
    exact hall

/-- `c.d.` is redirected to `c.`, which does not exist. -/
def denial : Message :=
  ⟨0, Flags.qr ||| 3, [newQuestion nameCD .a], [redirection, redirectionSig, synthesized],
    [soa, soaSig, record .root (.nsec nsecRoot), rootSig, record Name.Short.b (.nsec nsecB), bSig], [], none⟩

theorem authoritative {n : Name} (h : n ∈ zone.owners) : zone.Authoritative n := by
  refine ⟨h, fun d hd hdn => ?_⟩
  have hall : ∀ d ∈ zone.owners, (d ≠ zone.apex ∧ .ns ∈ zone.types d ∨ .dname ∈ zone.types d) →
      ∀ n ∈ zone.owners, d.Encloses n → d = n := by decide
  exact hall d hd.1 hd.2 n h hdn

theorem isNSEC_root : zone.IsNSEC .root nsecRoot :=
  SignedZone.isNSEC_of_gap (authoritative (by decide)) (authoritative (by decide)) (by decide) fun _ =>
    mem_toFinset.symm

theorem isNSEC_b : zone.IsNSEC Name.Short.b nsecB :=
  SignedZone.isNSEC_of_gap (authoritative (by decide)) (authoritative (by decide)) (by decide) fun _ =>
    mem_toFinset.symm

theorem authority {n : Name} (hn : n.isValid) : tree.Authority zone n := by
  have hnone : ∀ d ∈ zone.owners, ¬(d ≠ zone.apex ∧ .ns ∈ zone.types d) := by decide
  refine ⟨rfl, ⟨rfl, hn, ?_⟩, fun d hd _ => hnone d hd.1.1 hd.2⟩
  exact nil_suffix

theorem absent_c : zone.Absent nameC := by
  have hexists : ∀ m ∈ zone.owners, ¬nameC.Encloses m := by decide
  have hoccludes : ∀ d ∈ zone.owners, .dname ∈ zone.types d ∨ .ns ∈ zone.types d ∧ d ≠ zone.apex →
      ¬d.Encloses nameC := by decide
  exact ⟨fun h => hexists h.choose h.choose_spec.1 h.choose_spec.2, fun d hd =>
    hoccludes d hd.1 (hd.2.symm.imp_right And.symm)⟩

theorem closestEncloser_c : zone.ClosestEncloser .root nameC := by
  have h := isNSEC_b.closestEncloser (q := nameC) (by decide) (by decide) absent_c
  rwa [show deeperAncestor nameC Name.Short.b nsecB.next = .root by decide] at h

theorem mem_data {r : Record} (h : r ∈ [soa, soaSig, redirection, redirectionSig]) : r ∈ zones.data zone := h

theorem aliases_denial :
    zones.Aliases nameCD [nameCD, nameC] ([redirection, redirectionSig] ++ [synthesized]) nameC := by
  have hsigs : ∀ s ∈ [redirectionSig], s ∈ zones.data zone ∧ s.name = redirection.name ∧ CoversType s .dname :=
    forall_mem_singleton.mpr ⟨mem_data (by decide), rfl, _, rfl, rfl⟩
  exact .dname (authority (by decide)) (mem_data (by decide)) rfl (by decide) (by decide) hsigs rfl rfl
    ⟨by decide, [[0x63]], by decide, by decide⟩ (.done nameC)

theorem nameErrorProof_denial : zone.NameErrorProof nameC (nsecs denial.authorities) := by
  refine ⟨⟨Name.Short.b, nsecB, by decide, by decide⟩, fun e w hclosest hwildcard => ?_⟩
  obtain rfl := hclosest.unique closestEncloser_c
  obtain rfl := hwildcard.unique (⟨by decide, by decide⟩ : IsWildcard .root star)
  exact ⟨.root, nsecRoot, by decide, by decide⟩

theorem nameError_c : zone.NameError nameC := by
  have hmissing : ∀ m ∈ zone.owners, ¬star.Encloses m := by decide
  refine ⟨absent_c, fun e w hclosest hwildcard hexists => ?_⟩
  obtain rfl := hclosest.unique closestEncloser_c
  obtain rfl := hwildcard.unique (⟨by decide, by decide⟩ : IsWildcard .root star)
  obtain ⟨m, hm, hbelow⟩ := hexists
  exact hmissing m hm hbelow

theorem honest_denial : zones.HonestResponse zone nameCD .a [nameCD, nameC] nameC denial := by
  refine ⟨authority (by decide), ⟨_, [], aliases_denial, forall_mem_nil _, fun r => ?_, fun _ => ?_⟩, ?_⟩
  · exact (or_iff_left not_mem_nil).symm
  · exact ⟨⟨soa, by decide, mem_data (by decide), rfl, rfl⟩, .inr ⟨nameError_c, nameErrorProof_denial⟩⟩
  · have hsig : ∀ {r : Record} (r' : Record), r' ∈ denial.authorities → asRRSIG r' = none → r.name = r'.name →
        CoversType r r'.type → zones.Vouched zone denial.authorities r := fun _ => .rrsig (by simp [zones])
    refine forall_mem_cons.mpr ⟨.soa (mem_data (by decide)) rfl rfl, ?_⟩
    refine forall_mem_cons.mpr ⟨hsig soa (by decide) rfl rfl ⟨_, rfl, rfl⟩, ?_⟩
    refine forall_mem_cons.mpr ⟨.nsec rfl rfl isNSEC_root, ?_⟩
    refine forall_mem_cons.mpr ⟨hsig (record .root (.nsec nsecRoot)) (by decide) rfl rfl ⟨_, rfl, rfl⟩, ?_⟩
    refine forall_mem_cons.mpr ⟨.nsec rfl rfl isNSEC_b, forall_mem_singleton.mpr ?_⟩
    exact hsig (record Name.Short.b (.nsec nsecB)) (by decide) rfl rfl ⟨_, rfl, rfl⟩

end RedirectedSample

/-- **Honest responses.** Of the answers only DNAME records and their signatures may go, and of the authority section
what is owned by the root or not at or above the queried name. So without an alias the SOA record stays and whatever the
queried name owns, unless the zone is the root. -/
theorem filterBailiwick_honest (zs : HonestZones) (z : SignedZone) (qname final : Name) (qtype : RRType)
    (names : List Name) (resp : Message) (h : zs.HonestResponse z qname qtype names final resp) :
    (∀ r ∈ resp.answers, r ∈ (filterBailiwick qname resp).answers ∨ Redirection r ∧ r.name ∉ names) ∧
    (∀ r ∈ resp.authorities, r ∈ (filterBailiwick qname resp).authorities ↔
      r.name.Encloses qname ∧ (r.name = .root → qname = .root)) ∧
    (names = [qname] → z.apex ≠ .root → ∀ r ∈ resp.authorities, r.name = z.apex ∨ r.name = qname →
      r ∈ (filterBailiwick qname resp).authorities) := by
  obtain ⟨aliases, found, haliases, hfound, hanswers, -⟩ := h.answers
  have hreaches := haliases.reaches (fun r hr => (hanswers r).mpr (.inl hr)) .refl
  refine ⟨?_, fun r hr => mem_authorities_filterBailiwick.trans (and_iff_right hr), ?_⟩
  · intro r hr
    by_cases hname : r.name ∈ names
    · exact .inl (mem_answers_filterBailiwick.mpr ⟨hr, hreaches r.name hname⟩)
    · refine .inr ⟨?_, hname⟩
      rcases (hanswers r).mp hr with halias | hlast
      · exact (haliases.owner r halias).resolve_left hname
      · exact absurd ((hfound r hlast).1.1 ▸ haliases.mem_final) hname
  · rintro rfl hapex r hr howner
    have habove : z.apex.Encloses qname := haliases.final_eq ▸ h.authority.2.1
    refine mem_authorities_filterBailiwick.mpr ⟨hr, ?_⟩
    rcases howner with hname | hname
    · rw [hname]
      exact ⟨habove, fun hroot => absurd hroot hapex⟩
    · rw [hname]
      exact ⟨.refl habove.2.1, id⟩

end Filter

namespace RedirectedSample

theorem filterBailiwick_honest_denial :
    zones.HonestResponse zone nameCD .a [nameCD, nameC] nameC denial ∧
    (redirection ∈ (filterBailiwick nameCD denial).answers ∨ Redirection redirection ∧ nameD ∉ [nameCD, nameC]) ∧
    (soa ∈ (filterBailiwick nameCD denial).authorities ↔
      soa.name.Encloses nameCD ∧ (soa.name = .root → nameCD = .root)) := by
  have h := filterBailiwick_honest zones zone nameCD nameC .a [nameCD, nameC] denial honest_denial
  exact ⟨honest_denial, h.1 redirection (by decide), h.2.1 soa (by decide)⟩

/-- **A denial is lost.** Of the response nothing is left but the CNAME record. -/
theorem denial_lost :
    zones.HonestResponse zone nameCD .a [nameCD, nameC] nameC denial ∧
    (filterBailiwick nameCD denial).answers = [synthesized] ∧ (filterBailiwick nameCD denial).authorities = [] :=
  ⟨honest_denial, by decide +kernel, by decide +kernel⟩

end RedirectedSample

end Acidns.Forward
