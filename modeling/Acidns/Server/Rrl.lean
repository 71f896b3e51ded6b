import Acidns.Cookies.Server
import Acidns.Wire.Presentation

/-!
# The keys of response rate limiting

`middleware_rrl.go` up to the key of the bucket that a response is counted in. What the bucket then does is left out.
-/

namespace Acidns

/-- The first `bits` bits of an address, the others cleared. -/
def maskBytes : (bits : Nat) → Bytes → Bytes
  | _, [] => []
  | bits, b :: bs =>
    (if 8 ≤ bits then b else b &&& UInt8.ofNat (2 ^ 8 - 2 ^ (8 - bits))) :: maskBytes (bits - 8) bs

theorem length_maskBytes (bits : Nat) (bs : Bytes) : (maskBytes bits bs).length = bs.length := by
  induction bs generalizing bits with
  | nil => rfl
  | cons b bs ih => rw [maskBytes, List.length_cons, ih, List.length_cons]

/-- The address of `Addr.Prefix`, or the address itself where that is an error. The zone is dropped. -/
def Addr.prefixed (v4Prefix v6Prefix : Int) : Addr → Addr
  | .zero => .zero
  | .v4 ip =>
    if 0 ≤ v4Prefix ∧ v4Prefix ≤ 32 then .v4 ⟨maskBytes v4Prefix.toNat ip.val, by rw [length_maskBytes, ip.property]⟩
    else .v4 ip
  | .v6 ip zone =>
    if 0 ≤ v6Prefix ∧ v6Prefix ≤ 128 then .v6 ⟨maskBytes v6Prefix.toNat ip.val, by rw [length_maskBytes, ip.property]⟩ ""
    else .v6 ip zone

namespace Rrl

/-- The kinds of response with a budget each. -/
inductive Class where
  | positive
  | negative
  | error
  deriving DecidableEq

def classify (m : Message) : Class :=
  if m.flags.rcode = RCODE.noError then if m.answers.length > 0 then .positive else .negative
  else if m.flags.rcode = RCODE.nxDomain then .negative
  else .error

/-- What responses have in common to share a bucket. -/
structure Key where
  source : Addr
  name : Bytes
  class_ : Class
  deriving DecidableEq

structure Config where
  v4Prefix : Int
  v6Prefix : Int

def bucketKey (r : Config) (src : Addr) (name : Name) (class_ : Class) : Key :=
  ⟨src.prefixed r.v4Prefix r.v6Prefix, name.text, class_⟩

def authoritySectionName (m : Message) (t : RRType) : Option Name :=
  (m.authorities.find? fun r => r.type = t).map Record.name

def isAncestorOrEqualLoop (anc : Name) : (fuel : Nat) → Name → Bool
  | 0, desc => anc.equal desc
  | fuel + 1, desc => anc.equal desc || (desc.parent.map (isAncestorOrEqualLoop anc fuel)).getD false

def isAncestorOrEqual (anc desc : Name) : Bool := isAncestorOrEqualLoop anc desc.wire.length desc

/-- The inner loop of `answerCommonAncestor`; at the root the function returns. -/
def climb (name : Name) : (fuel : Nat) → (lca : Name) → Except Name Name
  | 0, lca => .error lca
  | fuel + 1, lca =>
    if isAncestorOrEqual lca name then .ok lca
    else
      match lca.parent with
      | none => .error lca
      | some parent => climb name fuel parent

def commonAncestorLoop : (lca : Name) → List Record → Name
  | lca, [] => lca
  | lca, r :: rest =>
    match climb r.name (lca.wire.length + 1) lca with
    | .error root => root
    | .ok lca => commonAncestorLoop lca rest

def answerCommonAncestor (m : Message) : Option Name :=
  match m.answers with
  | [] => none
  | r :: rest => some (commonAncestorLoop r.name rest)

def questionName (m q : Message) : Name :=
  match q.questions, m.questions with
  | qq :: _, _ => qq.name
  | [], qq :: _ => qq.name
  | [], [] => .zero

/-- The name that a response is counted under. -/
def responseKeyName (m q : Message) : Name :=
  match classify m with
  | .negative => ((authoritySectionName m .soa).or (authoritySectionName m .ns)).getD (questionName m q)
  | .positive =>
    ((authoritySectionName m .soa).or
      ((if m.answers.length = 0 then authoritySectionName m .ns else none).or (answerCommonAncestor m))).getD (questionName m q)
  | .error => questionName m q

def key (r : Config) (remote : Addr) (q m : Message) : Key :=
  bucketKey r remote.unmap (responseKeyName m q) (classify m)

/-! ### The name of a response -/

section Names

variable {m q : Message} {n k name anc desc lca : Name} {rest : List Record} {fuel : Nat}

theorem isAncestorOrEqualLoop_iff (hdesc : desc.isValid) (hfuel : desc.labels.length ≤ fuel) :
    isAncestorOrEqualLoop anc fuel desc = true ↔ anc.Encloses desc := by
  induction fuel generalizing desc with
  | zero =>
    have hroot : desc.labels = [] := List.length_eq_zero_iff.mp (Nat.le_zero.mp hfuel)
    simp [isAncestorOrEqualLoop, Name.equal_iff, Name.encloses_iff_parent hdesc, Name.parent_of_labels_nil hdesc hroot]
  | succ fuel ih =>
    rw [isAncestorOrEqualLoop, Bool.or_eq_true, Name.equal_iff, Name.encloses_iff_parent hdesc]
    cases hparent : desc.parent with
    | none => simp
    | some p =>
      obtain ⟨hp, l, hlabels⟩ := Name.labels_of_parent hdesc hparent
      rw [hlabels, List.length_cons] at hfuel
      simp [ih hp (Nat.le_of_succ_le_succ hfuel)]

theorem isAncestorOrEqual_iff (hdesc : desc.isValid) : isAncestorOrEqual anc desc = true ↔ anc.Encloses desc :=
  isAncestorOrEqualLoop_iff hdesc (Name.length_labels_lt_wire hdesc).le

/-- `n` is the deepest name at or above every owner. -/
structure DeepestAbove (n : Name) (rs : List Record) : Prop where
  above : ∀ r ∈ rs, n.Encloses r.name
  deepest : ∀ k : Name, (∀ r ∈ rs, k.Encloses r.name) → k.Encloses n

theorem DeepestAbove.unique {rs : List Record} (h : DeepestAbove n rs) (h' : DeepestAbove k rs) : n = k :=
  (h'.deepest n h.above).antisymm (h.deepest k h'.above)

/-- From a valid name the climb ends at the deepest name at or above both; the root is above every name. -/
theorem climb_spec (hname : name.isValid) (hlca : lca.isValid) (hfuel : lca.labels.length < fuel) :
    ∃ d, climb name fuel lca = .ok d ∧ d.Encloses lca ∧ d.Encloses name ∧
      ∀ k : Name, k.Encloses lca → k.Encloses name → k.Encloses d := by
  induction fuel generalizing lca with
  | zero => cases hfuel
  | succ fuel ih =>
    rw [climb]
    by_cases habove : lca.Encloses name
    · rw [if_pos ((isAncestorOrEqual_iff hname).mpr habove)]
      exact ⟨lca, rfl, .refl hlca, habove, fun _ h _ => h⟩
    rw [if_neg (mt (isAncestorOrEqual_iff hname).mp habove)]
    cases hlabels : lca.labels with
    | nil => exact absurd ⟨hlca, hname, hlabels ▸ List.nil_suffix⟩ habove
    | cons l ls =>
      obtain ⟨p, hparent, hp, hls⟩ := Name.parent_of_labels_cons hlca hlabels
      rw [hlabels, List.length_cons] at hfuel
      obtain ⟨d, hd, hdp, hdname, hdeepest⟩ := ih hp (hls ▸ Nat.lt_of_succ_lt_succ hfuel)
      refine ⟨d, by simp only [hparent, hd], hdp.trans (Name.encloses_of_parent hlca hparent), hdname, ?_⟩
      intro k hk hkname
      rcases (Name.encloses_iff_parent hlca).mp hk with rfl | ⟨p', hp', hkp⟩
      · exact absurd hkname habove
      · rw [hparent] at hp'
        cases hp'
        exact hdeepest k hkp hkname

theorem commonAncestorLoop_spec (hlca : lca.isValid) (hrest : ∀ r ∈ rest, r.name.isValid) :
    (commonAncestorLoop lca rest).Encloses lca ∧ (∀ r ∈ rest, (commonAncestorLoop lca rest).Encloses r.name) ∧
      ∀ k : Name, k.Encloses lca → (∀ r ∈ rest, k.Encloses r.name) → k.Encloses (commonAncestorLoop lca rest) := by
  induction rest generalizing lca with
  | nil => exact ⟨.refl hlca, nofun, fun _ h _ => h⟩
  | cons r rest ih =>
    obtain ⟨hr, hrest⟩ := List.forall_mem_cons.mp hrest
    obtain ⟨d, hd, hdlca, hdname, hdeepest⟩ :=
      climb_spec hr hlca (Nat.lt_succ_of_lt (Name.length_labels_lt_wire hlca))
    obtain ⟨hloop, hall, hmax⟩ := ih hdlca.1 hrest
    rw [commonAncestorLoop, hd]
    refine ⟨hloop.trans hdlca, List.forall_mem_cons.mpr ⟨hloop.trans hdname, hall⟩, fun k hk hkall => ?_⟩
    obtain ⟨hkr, hkrest⟩ := List.forall_mem_cons.mp hkall
    exact hmax k (hdeepest k hk hkr) hkrest

theorem answerCommonAncestor_spec (hne : m.answers ≠ []) (hvalid : ∀ r ∈ m.answers, r.name.isValid) :
    ∃ n, answerCommonAncestor m = some n ∧ DeepestAbove n m.answers := by
  rw [answerCommonAncestor]
  cases hanswers : m.answers with
  | nil => exact absurd hanswers hne
  | cons r rest =>
    obtain ⟨hr, hrest⟩ := List.forall_mem_cons.mp (hanswers ▸ hvalid)
    obtain ⟨hloop, hall, hmax⟩ := commonAncestorLoop_spec hr hrest
    refine ⟨_, rfl, List.forall_mem_cons.mpr ⟨hloop, hall⟩, fun k hk => ?_⟩
    exact hmax k (hk r List.mem_cons_self) fun r hr => hk r (List.mem_cons_of_mem _ hr)

/-- A positive answer made from the wildcard below `encloser`: a record of it has the name that was asked. The others
may be those a CNAME of the wildcard leads to. -/
structure FromWildcard (encloser : Name) (q m : Message) : Prop where
  positive : classify m = .positive
  asked : q.questions ≠ []
  below : questionName m q ≠ encloser ∧ encloser.Encloses (questionName m q)
  made : ∃ r ∈ m.answers, r.name = questionName m q
  valid : ∀ r ∈ m.answers, r.name.isValid

/-- The name that a positive answer stands for: the owner of its SOA, without one the deepest name at or above the
owners of the answers. -/
def StandsFor (m : Message) (n : Name) : Prop :=
  authoritySectionName m .soa = some n ∨ authoritySectionName m .soa = none ∧ DeepestAbove n m.answers

theorem FromWildcard.responseKeyName_eq_iff {encloser : Name} (h : FromWildcard encloser q m) :
    responseKeyName m q = n ↔ StandsFor m n := by
  obtain ⟨made, hmade, -⟩ := h.made
  have hne := List.ne_nil_of_mem hmade
  have hlength : ¬m.answers.length = 0 := fun h0 => hne (List.length_eq_zero_iff.mp h0)
  obtain ⟨d, hd, hdeepest⟩ := answerCommonAncestor_spec hne h.valid
  rw [responseKeyName, h.positive]
  simp only [if_neg hlength, hd, StandsFor]
  cases authoritySectionName m .soa with
  | some zone => simp
  | none =>
    simp only [Option.none_or, Option.getD_some, reduceCtorEq, false_or, true_and]
    exact ⟨fun heq => heq ▸ hdeepest, hdeepest.unique⟩

end Names

/-! ### One bucket for one kind of response -/

/-- Errors, denials of one zone, and answers from one wildcard to different questions. -/
inductive Grouped (q m q' m' : Message) : Prop
  | errors (h : classify m = .error) (h' : classify m' = .error)
  | denials (zone : Name) (h : classify m = .negative) (h' : classify m' = .negative)
      (hzone : authoritySectionName m .soa = some zone) (hzone' : authoritySectionName m' .soa = some zone)
  | wildcard (encloser : Name) (h : FromWildcard encloser q m) (h' : FromWildcard encloser q' m')
      (hother : questionName m q ≠ questionName m' q')

/-- Errors to one question name; answers that stand for one name. -/
structure SameName (q m q' m' : Message) : Prop where
  errors : classify m = .error → questionName m q = questionName m' q'
  answers : classify m = .positive → ∃ n, StandsFor m n ∧ StandsFor m' n

theorem key_eq_iff {r : Config} {src src' : Addr} {q m q' m' : Message}
    (hsrc : src.unmap.prefixed r.v4Prefix r.v6Prefix = src'.unmap.prefixed r.v4Prefix r.v6Prefix)
    (hclass : classify m = classify m') :
    key r src q m = key r src' q' m' ↔ responseKeyName m q = responseKeyName m' q' := by
  rw [← Name.text_injective.eq_iff]
  grind [key, bucketKey]

/-- Responses of one group to one prefix have one key exactly if the errors answer one question name and the answers
stand for one name; denials of one zone always have one. -/
theorem grouped_key_eq_iff (r : Config) (src src' : Addr) (q m q' m' : Message)
    (hsrc : src.unmap.prefixed r.v4Prefix r.v6Prefix = src'.unmap.prefixed r.v4Prefix r.v6Prefix)
    (h : Grouped q m q' m') : key r src q m = key r src' q' m' ↔ SameName q m q' m' := by
  cases h with
  | errors h h' =>
    have hnames : responseKeyName m q = questionName m q ∧ responseKeyName m' q' = questionName m' q' := by
      rw [responseKeyName, responseKeyName, h, h']
      exact ⟨rfl, rfl⟩
    rw [key_eq_iff hsrc (h.trans h'.symm), hnames.1, hnames.2]
    refine ⟨fun heq => ⟨fun _ => heq, fun hpos => ?_⟩, fun heq => heq.errors h⟩
    rw [h] at hpos
    cases hpos
  | denials zone h h' hzone hzone' =>
    have hnames : responseKeyName m q = zone ∧ responseKeyName m' q' = zone := by
      rw [responseKeyName, responseKeyName, h, h', hzone, hzone']
      exact ⟨rfl, rfl⟩
    rw [key_eq_iff hsrc (h.trans h'.symm), hnames.1, hnames.2]
    refine iff_of_true rfl ⟨fun herr => ?_, fun hpos => ?_⟩
    · rw [h] at herr
      cases herr
    · rw [h] at hpos
      cases hpos
  | wildcard encloser h h' =>
    rw [key_eq_iff hsrc (h.positive.trans h'.positive.symm), h.responseKeyName_eq_iff]
    refine ⟨fun heq => ⟨fun herr => ?_, fun _ => ⟨_, heq, h'.responseKeyName_eq_iff.mp rfl⟩⟩, fun heq => ?_⟩
    · rw [h.positive] at herr
      cases herr
    · obtain ⟨n, hn, hn'⟩ := heq.answers h.positive
      rwa [h'.responseKeyName_eq_iff.mpr hn']

def hostAddr (host : UInt8) : Addr := .v4 ⟨[198, 51, 100, host], rfl⟩

def asks (n : Name) : Message := ⟨1, 0, [newQuestion n 1], [], [], [], none⟩

def denied (n : Name) : Message :=
  ⟨1, 0x8403, [newQuestion n 1], [], [newRecord Name.Short.a 0 (.soa ⟨Name.Short.a, Name.Short.a, 1, 0, 0, 0, 0⟩)], [], none⟩

/-- An alias made from `*.a.`, with the record it leads to. -/
def aliased (n : Name) : Message :=
  ⟨1, 0x8400, [newQuestion n 1], [newRecord n 0 (.cname Name.Short.a), newRecord Name.Short.a 0 (.txt [])], [], [], none⟩

theorem standsFor_aliased {n : Name} (hn : Name.Short.a.Encloses n) : StandsFor (aliased n) Name.Short.a := by
  refine .inr ⟨rfl, ?_, fun k hk => hk _ (.tail _ (.head _))⟩
  exact List.forall_mem_cons.mpr ⟨hn, List.forall_mem_singleton.mpr (.refl rfl)⟩

/-- Two hosts of one network: denials of one zone, and answers from one wildcard that lead to one name. -/
theorem grouped_key_eq_hosts :
    hostAddr 1 ≠ hostAddr 77 ∧
      key ⟨24, 56⟩ (hostAddr 1) (asks Name.Short.ba) (denied Name.Short.ba) =
        key ⟨24, 56⟩ (hostAddr 77) (asks Name.Short.ca) (denied Name.Short.ca) ∧
      key ⟨24, 56⟩ (hostAddr 1) (asks Name.Short.ba) (aliased Name.Short.ba) =
        key ⟨24, 56⟩ (hostAddr 77) (asks Name.Short.ca) (aliased Name.Short.ca) := by
  refine ⟨by decide, (grouped_key_eq_iff _ _ _ _ _ _ _ rfl ?_).mpr ⟨nofun, nofun⟩,
    (grouped_key_eq_iff _ _ _ _ _ _ _ rfl ?_).mpr ⟨nofun, fun _ => ⟨Name.Short.a, ?_, ?_⟩⟩⟩
  · exact .denials Name.Short.a (by decide +kernel) (by decide +kernel) (by decide +kernel) (by decide +kernel)
  · refine .wildcard Name.Short.a ⟨?_, ?_, ?_, ?_, ?_⟩ ⟨?_, ?_, ?_, ?_, ?_⟩ ?_ <;> decide +kernel
  · exact standsFor_aliased (by decide +kernel)
  · exact standsFor_aliased (by decide +kernel)

def refused (n : Name) : Message := ⟨1, 0x8005, [newQuestion n 1], [], [], [], none⟩

def answered (n : Name) : Message := ⟨1, 0x8400, [newQuestion n 1], [newRecord n 0 (.txt [])], [], [], none⟩

/-- Two errors, and two answers from the wildcard `*.a.`, for names that differ have keys that differ. -/
theorem rotating_names_keys :
    Grouped (asks Name.Short.ba) (refused Name.Short.ba) (asks Name.Short.ca) (refused Name.Short.ca) ∧
      key ⟨24, 56⟩ (hostAddr 1) (asks Name.Short.ba) (refused Name.Short.ba) ≠
        key ⟨24, 56⟩ (hostAddr 1) (asks Name.Short.ca) (refused Name.Short.ca) ∧
      Grouped (asks Name.Short.ba) (answered Name.Short.ba) (asks Name.Short.ca) (answered Name.Short.ca) ∧
      key ⟨24, 56⟩ (hostAddr 1) (asks Name.Short.ba) (answered Name.Short.ba) ≠
        key ⟨24, 56⟩ (hostAddr 1) (asks Name.Short.ca) (answered Name.Short.ca) := by
  refine ⟨.errors (by decide +kernel) (by decide +kernel), by decide +kernel,
    .wildcard Name.Short.a ⟨?_, ?_, ?_, ?_, ?_⟩ ⟨?_, ?_, ?_, ?_, ?_⟩ ?_, by decide +kernel⟩ <;> decide +kernel

end Rrl

end Acidns
