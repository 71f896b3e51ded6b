import Acidns.Recursive.Cache
import Acidns.Wire.Hierarchy

/-!
# What the resolver takes from a response

The functions of `recursive/recursive.go` that look at one response: the bailiwick filter, the
lifetime of the entry that is made of it, the delegation it may hold, and the CNAME it may end in.
-/

namespace Acidns

open List

structure AddrPort where
  addr : Bytes
  port : UInt16
  deriving DecidableEq

namespace Recursive

/-! ### Owners -/

/-- The loop of `inBailiwick`, which climbs from a name to the root; a name has fewer parents than
bytes. -/
def inBailiwickLoop (ancestor : Name) : Nat → Name → Bool
  | 0, _ => false
  | fuel + 1, cur =>
    cur.isValid && (cur.equal ancestor ||
      match cur.parent with
      | some p => !cur.equal p && inBailiwickLoop ancestor fuel p
      | none => false)

/-- The one name is the other or above it. -/
def inBailiwick (ancestor descendant : Name) : Bool :=
  inBailiwickLoop ancestor (descendant.wire.length + 1) descendant

theorem inBailiwickLoop_iff {ancestor cur : Name} {fuel : Nat} (hcur : cur.isValid) (hfuel : cur.labels.length < fuel) :
    inBailiwickLoop ancestor fuel cur = true ↔ ancestor.Encloses cur := by
  induction fuel generalizing cur with
  | zero => omega
  | succ fuel ih => grind [inBailiwickLoop, Name.encloses_iff_parent, Name.equal_iff, Name.labels_of_parent]

theorem inBailiwick_iff {ancestor descendant : Name} :
    inBailiwick ancestor descendant = true ↔ ancestor.Encloses descendant := by
  grind [inBailiwickLoop_iff, Name.length_labels_lt_wire, inBailiwick, inBailiwickLoop, Name.Encloses]

def recordsAt (records : List Record) (name : Name) : List Record :=
  records.filter fun r => r.name.equal name

def hasTypeAt (records : List Record) (owner : Name) (t : RRType) : Bool :=
  records.any fun r => r.type = t ∧ r.name.equal owner

def cnameTarget (r : Record) : Option Name :=
  match r.rd with
  | .cname target => some target
  | _ => none

def nsTarget (r : Record) : Option Name :=
  match r.rd with
  | .ns target => some target
  | _ => none

/-- The first CNAME at the owner. -/
def pickCNAMETarget (records : List Record) (owner : Name) : Option Name :=
  records.findSome? fun r => if r.name.equal owner then cnameTarget r else none

/-- The answer section has the type, or a CNAME, at the name. -/
def hasAnswerFor (resp : Message) (name : Name) (t : RRType) : Bool :=
  resp.answers.any fun r => (r.type = t ∨ r.type = .cname) ∧ r.name.equal name

/-! ### The bailiwick filter -/

/-- One pass over the answers: the targets of the CNAMEs whose owners are in the chain join it. -/
def growChain (answers : List Record) (chain : List Bytes) : List Bytes :=
  answers.foldl (fun chain r =>
    match cnameTarget r with
    | some target =>
      if nameKey r.name ∈ chain ∧ nameKey target ∉ chain then nameKey target :: chain else chain
    | none => chain) chain

/-- The names that the CNAMEs of the answers reach. The source repeats the pass until it adds nothing; each pass before
adds a target, so there are at most as many as answers. -/
def cnameChain (qname : Name) (answers : List Record) : List Bytes :=
  Nat.iterate (growChain answers) answers.length [nameKey qname]

def isDNSSECDenialType (t : RRType) : Bool := t = .nsec ∨ t = .nsec3 ∨ t = .rrsig

/-- The SOA's zone, if the question lies in it. -/
def denialZone (qname : Name) (authorities : List Record) : Name :=
  let soaOwner := ((authorities.find? fun r => r.type = .soa).map Record.name).getD .zero
  let soaOwner := if soaOwner.isValid ∧ !inBailiwick soaOwner qname then .zero else soaOwner
  if soaOwner.isRoot ∧ !qname.isRoot then .zero else soaOwner

/-- Ancestors of the question, and denials of the zone that answers. -/
def keepAuthority (qname soaOwner : Name) (r : Record) : Bool :=
  !(r.name.isRoot && !qname.isRoot) &&
    (inBailiwick r.name qname ||
      (soaOwner.isValid && isDNSSECDenialType r.type && inBailiwick soaOwner r.name))

def deepestAncestor (authority : List Record) (qname : Name) : Name :=
  authority.foldl (fun best r =>
    if inBailiwick r.name qname ∧ (!best.isValid ∨ best.wireLen < r.name.wireLen) then r.name else best) .zero

/-- Records of referenced hosts within the zone cut. -/
def keepAdditional (referenced : List Bytes) (zoneCut : Name) (r : Record) : Bool :=
  r.type = .opt || (nameKey r.name ∈ referenced && !(zoneCut.isValid && !inBailiwick zoneCut r.name))

/-- The sections as they may be cached. -/
def bailiwickFilter (qname : Name) (resp : Message) : List Record × List Record × List Record :=
  let chain := cnameChain qname resp.answers
  let answers := resp.answers.filter fun r => nameKey r.name ∈ chain
  let soaOwner := denialZone qname resp.authorities
  let authority := resp.authorities.filter (keepAuthority qname soaOwner)
  let zoneCut := deepestAncestor authority qname
  let referenced := (answers.filterMap cnameTarget ++ authority.filterMap nsTarget).map nameKey
  (answers, authority, resp.additionals.filter (keepAdditional referenced zoneCut))

/-! ### The lifetime of an entry -/

/-- The smallest TTL of the records, or `floor` if there are none. -/
def minTTL (floor : Duration) (records : List Record) : Duration :=
  let smallest := records.foldl (fun (s : Duration) r => if s < 0 ∨ r.ttl < s then r.ttl else s) (-1)
  if smallest < 0 then floor else smallest

/-- The TTL of a denial (RFC 2308). -/
def negativeCacheTTL (authority : List Record) : Duration :=
  (authority.findSome? fun r =>
    match r.rd with
    | .soa soa => some (if r.ttl < soa.minimum then r.ttl else soa.minimum)
    | _ => none).getD 0

/-- The lifetime of the entry for a response; a bound that is not positive is off. -/
def responseTTL (maxNegTTL maxPosTTL : Duration) (resp : Message) : Duration :=
  let ttl := minTTL (60 * second) (resp.answers ++ resp.authorities)
  if resp.answers.length = 0 then
    let neg := negativeCacheTTL resp.authorities
    let ttl := if 0 < neg ∧ neg < ttl then neg else ttl
    if 0 < maxNegTTL ∧ maxNegTTL < ttl then maxNegTTL else ttl
  else if 0 < maxPosTTL ∧ maxPosTTL < ttl then maxPosTTL else ttl

/-! ### Referrals -/

/-- The owner of the NS records of the authority section; the zero name if there are none. -/
def referralZone (resp : Message) : Name :=
  ((resp.authorities.find? fun r => r.type = .ns).map Record.name).getD .zero

def addressOf (r : Record) : Option AddrPort :=
  match r.rd with
  | .a a => some ⟨a.1, 53⟩
  | .aaaa a => some ⟨a.1, 53⟩
  | _ => none

/-- The addresses given with a referral. -/
def glueFor (target : Name) (additional : List Record) (zone : Name) : List AddrPort :=
  (additional.filter fun r => r.name.equal target ∧ !(zone.isValid && !inBailiwick zone r.name)).filterMap addressOf

def splitReferral (resp : Message) : List AddrPort × List Name :=
  let zone := referralZone resp
  resp.authorities.foldl (fun (glued, unglued) r =>
    match nsTarget r with
    | some target =>
      if zone.isValid ∧ !r.name.equal zone then (glued, unglued)
      else if zone.isValid ∧ inBailiwick zone target then
        match glueFor target resp.additionals zone with
        | [] => (glued, unglued ++ [target])
        | addrs => (glued ++ addrs, unglued)
      else (glued, unglued ++ [target])
    | none => (glued, unglued)) ([], [])

/-- The loop of `minimisedQName`, which strips labels; a name has fewer labels than bytes. -/
def minimisedLoop (encLabels : Nat) (target : Name) : Nat → Name → Name
  | 0, n => n
  | fuel + 1, n =>
    if encLabels + 1 < n.numLabels then
      match n.parent with
      | some p => if n.equal p then target else minimisedLoop encLabels target fuel p
      | none => target
    else n

/-- One label below the closest zone (RFC 9156). -/
def minimisedQName (closestZone target : Name) : Name :=
  minimisedLoop closestZone.numLabels target target.wire.length target

def removeServer (servers : List AddrPort) (target : AddrPort) : List AddrPort :=
  servers.filter fun s => s ≠ target

/-! ### The chain

The filter's chain is everything that the answer section's CNAMEs reach. -/

/-- A name, by its key, that CNAMEs among the answers reach from `start`. -/
inductive Reaches (answers : List Record) (start : Bytes) : Bytes → Prop
  | refl : Reaches answers start start
  | step {r : Record} {target : Name} : Reaches answers start (nameKey r.name) → r ∈ answers →
    cnameTarget r = some target → Reaches answers start (nameKey target)

section Chain

variable {answers rs : List Record} {chain : List Bytes} {start b : Bytes}

/-- A CNAME at a name of the chain brings its target in. -/
def growStep (chain : List Bytes) (r : Record) : List Bytes :=
  match cnameTarget r with
  | some target => if nameKey r.name ∈ chain ∧ nameKey target ∉ chain then nameKey target :: chain else chain
  | none => chain

theorem growStep_cases (chain : List Bytes) (r : Record) : growStep chain r = chain ∨
    ∃ target, cnameTarget r = some target ∧ nameKey r.name ∈ chain ∧ nameKey target ∉ chain ∧
      growStep chain r = nameKey target :: chain := by
  grind [growStep]

theorem reaches_foldl (hsub : rs ⊆ answers) (h : ∀ b ∈ chain, Reaches answers start b) :
    ∀ b ∈ rs.foldl growStep chain, Reaches answers start b := by
  induction rs generalizing chain with
  | nil => exact h
  | cons r rs ih =>
    refine ih (fun r' hr' => hsub (.tail _ hr')) ?_
    rcases growStep_cases chain r with heq | ⟨target, htarget, howner, -, heq⟩
    · rw [heq]; exact h
    · rw [heq]
      refine forall_mem_cons.mpr ⟨?_, h⟩
      exact .step (h _ howner) (hsub (.head _)) htarget

theorem nodup_foldl (h : chain.Nodup) : (rs.foldl growStep chain).Nodup := by
  induction rs generalizing chain with
  | nil => exact h
  | cons r rs ih =>
    apply ih
    rcases growStep_cases chain r with heq | ⟨target, -, -, hnew, heq⟩
    · rw [heq]; exact h
    · rw [heq]; exact nodup_cons.mpr ⟨hnew, h⟩

theorem suffix_foldl (rs : List Record) (chain : List Bytes) : chain <:+ rs.foldl growStep chain := by
  induction rs generalizing chain with
  | nil => exact suffix_rfl
  | cons r rs ih => grind [growStep_cases, suffix_cons]

theorem closed_of_length_foldl (h : (rs.foldl growStep chain).length = chain.length) :
    ∀ r ∈ rs, ∀ target, cnameTarget r = some target → nameKey r.name ∈ chain → nameKey target ∈ chain := by
  induction rs generalizing chain with
  | nil => simp
  | cons r rs ih =>
    have hlen := (suffix_foldl rs (growStep chain r)).length_le
    rcases growStep_cases chain r with heq | ⟨target, -, -, -, heq⟩
    · grind [growStep]
    · rw [foldl_cons] at h
      rw [heq] at hlen h
      rw [length_cons] at hlen
      omega

theorem iterate_growChain (n : Nat) :
    chain.length + n ≤ (Nat.iterate (growChain answers) n chain).length ∨
      growChain answers (Nat.iterate (growChain answers) n chain) = Nat.iterate (growChain answers) n chain := by
  induction n generalizing chain with
  | zero => exact .inl (Nat.le_refl _)
  | succ n ih =>
    have hsuffix := suffix_foldl answers chain
    rcases Nat.lt_or_ge chain.length (growChain answers chain).length with hgrew | hsame
    · refine (@ih (growChain answers chain)).imp_left fun h => ?_
      rw [Function.iterate_succ_apply]
      omega
    · have hfix : growChain answers chain = chain :=
        (hsuffix.eq_of_length (Nat.le_antisymm hsuffix.length_le hsame)).symm
      right
      rw [Function.iterate_succ_apply, hfix, Function.iterate_fixed hfix, hfix]

/-- As many rounds as there are answers close the chain. -/
theorem growChain_iterate_length :
    ∀ r ∈ answers, ∀ target, cnameTarget r = some target →
      nameKey r.name ∈ Nat.iterate (growChain answers) answers.length [start] →
        nameKey target ∈ Nat.iterate (growChain answers) answers.length [start] := by
  rcases @iterate_growChain answers [start] answers.length with hlong | hfix
  · -- The chain is as long as it can be, so it holds every target.
    intro r hr target htarget _
    have hnodup : (Nat.iterate (growChain answers) answers.length [start]).Nodup :=
      Function.Iterate.rec List.Nodup (nodup_singleton start) (fun _ => nodup_foldl) _
    have hsub : Nat.iterate (growChain answers) answers.length [start] ⊆
        start :: (answers.filterMap cnameTarget).map nameKey := by
      have hreach : ∀ b ∈ Nat.iterate (growChain answers) answers.length [start], Reaches answers start b :=
        Function.Iterate.rec (fun chain => ∀ b ∈ chain, Reaches answers start b) (by simp [Reaches.refl])
          (fun _ => reaches_foldl (List.Subset.refl _)) _
      intro b hb
      cases hreach b hb with
      | refl => exact .head _
      | step _ hr' htarget' =>
        exact .tail _ (mem_map_of_mem (mem_filterMap.mpr ⟨_, hr', htarget'⟩))
    have hbound := length_filterMap_le cnameTarget answers
    have hperm := (subperm_of_subset hnodup hsub).perm_of_length_le
      (by simp only [length_cons, length_map, length_nil] at hlong ⊢; omega)
    rw [hperm.mem_iff]
    exact .tail _ (mem_map_of_mem (mem_filterMap.mpr ⟨r, hr, htarget⟩))
  · exact closed_of_length_foldl (congrArg List.length hfix)

theorem mem_cnameChain {qname : Name} : b ∈ cnameChain qname answers ↔ Reaches answers (nameKey qname) b := by
  constructor
  · exact Function.Iterate.rec (fun chain => ∀ b ∈ chain, Reaches answers (nameKey qname) b)
      (by simp [Reaches.refl]) (fun _ => reaches_foldl (List.Subset.refl _)) _ b
  · intro h
    induction h with
    | refl =>
      exact Function.Iterate.rec (fun chain => nameKey qname ∈ chain) mem_cons_self
        (fun chain hmem => (suffix_foldl answers chain).subset hmem) _
    | step _ hr htarget ih => exact growChain_iterate_length _ hr _ htarget ih

end Chain

end Recursive

end Acidns
