import Acidns.Recursive.Aggressive
import Acidns.Recursive.Walk

/-!
# Validation and the cache

With a validator, an entry is validated by the call that resolves it, but it is cached before that,
and a later call for the same name and type takes it from the cache as it is. So a bogus answer is
refused exactly as long as the cache holds no live entry for it. The AD bit of a cached entry is the
one the server sent, and a synthesised denial always has it; where those are right, so is every entry
returned.
-/

namespace Acidns.Recursive.Resolver

open Program

variable {cfg : Config Aggressive} {world : World} {s : State Aggressive} {name : Name} {t : RRType}
  {sha1 : Bytes → Bytes} {idx : Aggressive}

/-! ### The AD bit -/

section Vouched

variable {verdict : Bytes → RRType → Except String ValidationStatus} {levels : Nat} {resp : Message} {now : Int}

/-- An entry with AD set is only cached for what the validator calls secure. -/
def Vouched (verdict : Bytes → RRType → Except String ValidationStatus) (s : State Aggressive) : Prop :=
  ∀ k e, s.cache.entries.lookup k = some e → e.ad → verdict k.name k.typ = .ok .secure

/-- A server sets AD only in responses to questions that the validator calls secure. -/
def HonestAD (world : World) (verdict : Bytes → RRType → Except String ValidationStatus) : Prop :=
  ∀ n t resp, IsResponse world n t resp → resp.flags.authenticData → verdict (nameKey n) t = .ok .secure

/-- The indexes deny only what the validator calls secure. -/
def HonestIndex (sha1 : Bytes → Bytes) (verdict : Bytes → RRType → Except String ValidationStatus) (a : Aggressive) :
    Prop :=
  ∀ n t now, ((a.nsec.synthesise n t now now).isSome ∨ (a.nsec3.synthesise sha1 n t now now).isSome) →
    verdict (nameKey n) t = .ok .secure

/-- What a call keeps up to its end, when it adds to the indexes. -/
def VouchedAt (verdict : Bytes → RRType → Except String ValidationStatus) (idx : Aggressive) (s : State Aggressive) :
    Prop :=
  Vouched verdict s ∧ s.denials = idx

theorem stable_vouched : Stable (Vouched verdict) := ⟨fun _ hs => hs, fun _ _ hs => hs, fun _ _ hs => hs⟩

theorem stable_vouchedAt : Stable (VouchedAt verdict idx) := ⟨fun _ hs => hs, fun _ _ hs => hs, fun _ _ hs => hs⟩

theorem keeps_cacheGet_vouched : Keeps (VouchedAt verdict idx) (cacheGet world name t) fun r =>
    ∀ e, r = some e → e.ad → verdict (nameKey name) t = .ok .secure := by
  intro s hs
  refine ⟨⟨fun k e hlookup => hs.1 k e (MemoryCache.lookup_of_lookup_get hlookup), hs.2⟩, fun e he had => ?_⟩
  obtain ⟨e', hlookup, -, rfl⟩ := MemoryCache.get_eq_some he
  exact hs.1 _ e' hlookup had

theorem keeps_cachePut_vouched {e : Entry} (he : e.ad → verdict (nameKey name) t = .ok .secure) :
    Keeps (VouchedAt verdict idx) (cachePut cfg world name t e) fun _ => True := by
  intro s hs
  refine ⟨⟨fun k e' hlookup had => ?_, hs.2⟩, trivial⟩
  by_cases hk : k = key name RRClass.classIN t
  · subst hk
    rw [MemoryCache.lookup_put] at hlookup
    cases hlookup
    exact he (by simpa using had)
  · exact hs.1 k e' (MemoryCache.lookup_of_lookup_put hk hlookup) had

theorem entryFromResponse_ad (h : (entryFromResponse cfg name resp now).ad) : resp.flags.authenticData := by
  simp only [entryFromResponse, Bool.and_eq_true] at h
  exact h.2

/-- A resolver with the indexes of the source, before a call that finds them honest. -/
structure Trusting (sha1 : Bytes → Bytes) (cfg : Config Aggressive) (world : World)
    (verdict : Bytes → RRType → Except String ValidationStatus) (idx : Aggressive) : Prop where
  validator : cfg.validator = some verdict
  index : cfg.denials = Aggressive.index sha1
  ad : HonestAD world verdict
  denials : cfg.aggressiveNSEC → HonestIndex sha1 verdict idx

variable (h : Trusting sha1 cfg world verdict idx)

include h

theorem missRules_vouched :
    MissRules cfg world (VouchedAt verdict idx) (fun e => e.ad → verdict (nameKey name) t = .ok .secure) name t where
  stable := stable_vouchedAt
  put _ := keeps_cachePut_vouched
  denial hon s now e hs he _ := by
    obtain ⟨-, rfl⟩ := hs
    rw [h.index] at he
    exact h.denials hon name t now (he.imp Option.isSome_of_eq_some Option.isSome_of_eq_some)
  response resp _ hresp he := h.ad name t resp hresp (entryFromResponse_ad he)

theorem keeps_resolveDepth_vouched : Keeps (VouchedAt verdict idx) (resolveDepth cfg world levels name t) fun e =>
    e.ad → verdict (nameKey name) t = .ok .secure := by
  induction levels generalizing name t with
  | zero => exact keeps_fail
  | succ levels ih =>
    refine keeps_bind keeps_cacheGet_vouched fun cached hcached => ?_
    cases cached with
    | some e => exact keeps_pure (hcached e rfl)
    | none => exact (missRules_vouched h).keeps_resolveMiss fun n t => (@ih n t).mono fun _ _ => trivial

omit h

theorem recordsAt_ne_nil {records : List Record} {owner target : Name}
    (h : pickCNAMETarget records owner = some target) : recordsAt records owner ≠ [] := by
  obtain ⟨r, hr, hsome⟩ := List.exists_of_findSome?_eq_some h
  have howner : r.name.equal owner := by
    by_contra hne
    rw [if_neg hne] at hsome
    cases hsome
  exact List.ne_nil_of_mem (List.mem_filter.mpr ⟨hr, howner⟩)

/-- AD comes from the verdict on the name first asked for. -/
def FirstLegVouched (verdict : Bytes → RRType → Except String ValidationStatus) (name : Name) (t : RRType)
    (cur : Name) (aggregated : Entry) : Prop :=
  (aggregated.answer = [] ∧ aggregated.authority = [] ∧ cur = name) ∨
    (aggregated.answer ≠ [] ∧ (aggregated.ad → verdict (nameKey name) t = .ok .secure))

variable {cur : Name} {aggregated entry : Entry} {leg : List Record}

theorem aggregate_ad (h : FirstLegVouched verdict name t cur aggregated)
    (hentry : entry.ad → verdict (nameKey cur) t = .ok .secure) (had : (aggregate aggregated entry leg).ad) :
    verdict (nameKey name) t = .ok .secure := by
  grind [aggregate, FirstLegVouched]

theorem aggregate_answer_ne_nil (h : leg ≠ []) :
    (aggregate aggregated entry leg).answer ≠ [] := by
  unfold aggregate
  split
  · exact h
  · exact fun happend => h (List.append_eq_nil_iff.mp happend).2

include h in
theorem keeps_follow_vouched {n : Nat} {seen : List Name} (hleg : FirstLegVouched verdict name t cur aggregated) :
    Keeps (VouchedAt verdict idx) (resolveDepthFollowLoop cfg world t n cur seen aggregated) fun e =>
      e.ad → verdict (nameKey name) t = .ok .secure := by
  induction n generalizing cur seen aggregated with
  | zero => exact keeps_fail
  | succ n ih =>
    refine keeps_ite (fun _ => keeps_fail) fun _ => ?_
    refine keeps_bind (keeps_resolveDepth_vouched h) fun entry hentry => ?_
    have hdone : Keeps (VouchedAt verdict idx)
        (pure (aggregate aggregated entry (recordsAt entry.answer cur)) : Resolver Aggressive _) fun e =>
          e.ad → verdict (nameKey name) t = .ok .secure := keeps_pure (aggregate_ad hleg hentry)
    refine keeps_ite (fun _ => hdone) fun _ => ?_
    split
    · exact hdone
    · rename_i target htarget
      refine keeps_ite (fun _ => hdone) fun _ => ih (.inr ⟨?_, aggregate_ad hleg hentry⟩)
      exact aggregate_answer_ne_nil (recordsAt_ne_nil htarget)

include h in
theorem keeps_validate_vouched (hentry : entry.ad → verdict (nameKey name) t = .ok .secure) :
    Keeps (VouchedAt verdict idx) (validate cfg name t entry) fun e =>
      verdict (nameKey name) t ≠ .ok .bogus ∧ (e.ad → verdict (nameKey name) t = .ok .secure) := by
  rw [validate, h.validator]
  dsimp only
  cases hverdict : verdict (nameKey name) t with
  | error e => exact keeps_fail
  | ok status => grind [keeps_fail, keeps_pure]

include h in
theorem triple_resolveFresh_vouched : Triple (VouchedAt verdict idx) (resolveFresh cfg world name t)
    (fun e s => Vouched verdict s ∧ verdict (nameKey name) t ≠ .ok .bogus ∧
      (e.ad → verdict (nameKey name) t = .ok .secure)) (Vouched verdict) := by
  have hleave : ∀ {α : Type} {p : Resolver Aggressive α} {good : α → Prop}, Keeps (VouchedAt verdict idx) p good →
      Triple (VouchedAt verdict idx) p (fun a s => VouchedAt verdict idx s ∧ good a) (Vouched verdict) :=
    fun hp => Triple.mono hp (fun _ hs => hs) (fun _ _ hs => hs) fun _ hs => hs.1
  refine triple_bind (hleave (keeps_follow_vouched h (.inl ⟨rfl, rfl, rfl⟩))) fun entry => ?_
  refine triple_assume (fun _ hs => hs.2) fun hentry => ?_
  refine triple_bind ((hleave (keeps_validate_vouched h hentry)).mono (fun _ hs => hs.1) (fun _ _ hs => hs)
    fun _ hs => hs) fun entry' => ?_
  refine triple_assume (fun _ hs => hs.2) fun hentry' => ?_
  have hharvest : Keeps (Vouched verdict) (harvest cfg world entry') fun _ => True :=
    keeps_harvest stable_vouched (fun _ _ hs => hs) entry'
  refine triple_bind (Triple.mono hharvest (fun _ hs => hs.1.1) (fun _ _ hs => hs) fun _ hs => hs) fun _ => ?_
  exact triple_pure fun _ hs => ⟨hs.1, hentry'⟩

include h in
theorem triple_resolveEntry_vouched : Triple (VouchedAt verdict idx) (resolveEntry cfg world name t)
    (fun e s => Vouched verdict s ∧ (e.ad → verdict (nameKey name) t = .ok .secure)) (Vouched verdict) := by
  refine triple_bind (Triple.mono keeps_cacheGet_vouched (fun _ hs => hs) (fun _ _ hs => hs) fun _ hs => hs.1)
    fun cached => ?_
  refine triple_assume (fun _ hs => hs.2) fun hcached => ?_
  cases cached with
  | some e => exact triple_pure fun _ hs => ⟨hs.1.1, hcached e rfl⟩
  | none =>
    exact (triple_resolveFresh_vouched h).mono (fun _ hs => hs.1) (fun _ _ hs => ⟨hs.1, hs.2.2⟩) fun _ hs => hs

omit h

/-- Runs in which every call finds the indexes honest. -/
inductive HonestRuns (sha1 : Bytes → Bytes) (cfg : Config Aggressive) (world : World)
    (verdict : Bytes → RRType → Except String ValidationStatus) : State Aggressive → Prop
  | initial : HonestRuns sha1 cfg world verdict (.initial .empty)
  | call {s : State Aggressive} (name : Name) (t : RRType) : HonestRuns sha1 cfg world verdict s →
    (cfg.aggressiveNSEC → HonestIndex sha1 verdict s.denials) →
    HonestRuns sha1 cfg world verdict (resolveEntry cfg world name t s).2

theorem vouched_of_runs (hcfg : cfg.validator = some verdict) (hindex : cfg.denials = Aggressive.index sha1)
    (had : HonestAD world verdict) (hs : HonestRuns sha1 cfg world verdict s) : Vouched verdict s := by
  induction hs with
  | initial => exact fun k e hlookup => by cases hlookup
  | @call s name t _ hdenials ih =>
    have htrust : Trusting sha1 cfg world verdict s.denials := ⟨hcfg, hindex, had, hdenials⟩
    have hcall : Triple (VouchedAt verdict s.denials) (resolveEntry cfg world name t) _ _ :=
      triple_resolveEntry_vouched htrust
    have hcall := hcall s ⟨ih, rfl⟩
    rcases hstep : resolveEntry cfg world name t s with ⟨e | e, s'⟩ <;> rw [hstep] at hcall
    · exact hcall
    · exact hcall.1

/-! ### A bogus answer out of the cache -/

def sampleName : Name := Name.Short.a

def sampleResponse (flags : Flags) : Message :=
  ⟨0, flags, [newQuestion sampleName .a], [newRecord sampleName (60 * second) (.a ⟨[192, 0, 2, 2], rfl⟩)], [], [], none⟩

def sampleWorld (flags : Flags) : World where
  clock _ := 0
  roots _ := [⟨[192, 0, 2, 1], 53⟩]
  rank _ servers := servers
  take _ _ := true
  randomID _ := .ok 0
  exchange _ _ _ := .ok (sampleResponse flags)
  expired _ := false

def sampleConfig (status : ValidationStatus) : Config Aggressive :=
  { Config.new (Aggressive.index fun _ => []) (some fun _ _ => .ok status) oneShard with
    aggressiveNSEC := true
    aggressive_validated := fun _ => rfl }

def sampleStart : State Aggressive := .initial .empty

theorem honestIndex_empty {verdict : Bytes → RRType → Except String ValidationStatus} :
    HonestIndex sha1 verdict .empty := by
  intro n t now h
  obtain ⟨hnsec, hnsec3⟩ := Aggressive.synthesise_empty sha1 n t now
  rw [show Aggressive.empty.nsec.synthesise n t now now = none from hnsec,
    show Aggressive.empty.nsec3.synthesise sha1 n t now now = none from hnsec3] at h
  exact h.elim nofun nofun

/-- A zone `a.` with nothing but its apex. -/
def bareZone : World :=
  { sampleWorld 0x8400 with
    exchange := fun _ _ query => .ok ⟨0, 0x8400, query.questions, [],
      [newRecord sampleName (60 * second) (.soa ⟨.root, .root, 1, 0, 0, 0, 0⟩),
        newRecord sampleName (60 * second) (.nsec ⟨sampleName, [.soa]⟩)], [], none⟩ }

/-- After a denial with an NSEC record that covers all names below `a.`. -/
def afterDenial : State Aggressive := (resolveEntry (sampleConfig .secure) bareZone sampleName .a sampleStart).2

/-- Where AD is honest, a call returns only what is not bogus, with AD only on what is secure, exactly if it does not
ask for something bogus that the cache holds. -/
theorem resolveEntry_safe_iff (hcfg : cfg.validator = some verdict) (hindex : cfg.denials = Aggressive.index sha1)
    (had : HonestAD world verdict) (hs : HonestRuns sha1 cfg world verdict s)
    (hdenials : cfg.aggressiveNSEC → HonestIndex sha1 verdict s.denials) :
    (∀ e, (resolveEntry cfg world name t s).1 = .ok e →
      verdict (nameKey name) t ≠ .ok .bogus ∧ (e.ad → verdict (nameKey name) t = .ok .secure)) ↔
    (verdict (nameKey name) t = .ok .bogus → ¬ Live world s name t) := by
  have hvouched : VouchedAt verdict s.denials s := ⟨vouched_of_runs hcfg hindex had hs, rfl⟩
  have htrust : Trusting sha1 cfg world verdict s.denials := ⟨hcfg, hindex, had, hdenials⟩
  constructor
  · rintro hsafe hbogus ⟨e, hlookup, hlive⟩
    have hhit := MemoryCache.get_of_lookup hlookup hlive
    exact (hsafe _ (resolveEntry_of_get (by rw [hhit]))).1 hbogus
  · intro hdead e he
    have hentry : resolveEntry cfg world name t s = (.ok e, _) := Prod.ext he rfl
    refine ⟨fun hbogus => ?_, ((triple_resolveEntry_vouched htrust).ok hvouched hentry).2⟩
    cases hget : (s.cache.get (key name RRClass.classIN t) (world.clock s.tick)).1 with
    | some e' =>
      obtain ⟨stored, hlookup, hlive, -⟩ := MemoryCache.get_eq_some hget
      exact hdead hbogus ⟨stored, hlookup, hlive⟩
    | none =>
      rw [resolveEntry_of_miss hget] at hentry
      have hmiss : VouchedAt verdict s.denials (cacheGet world name t s).2 := keeps_cacheGet_vouched.state hvouched
      exact ((triple_resolveFresh_vouched htrust).ok hmiss hentry).2.1 hbogus

end Vouched

theorem resolveEntry_safe_iff_sample :
    ((∀ e, (resolveEntry (sampleConfig .bogus) (sampleWorld 0x8400) sampleName .a
        (resolveEntry (sampleConfig .bogus) (sampleWorld 0x8400) sampleName .a sampleStart).2).1 = .ok e →
      (.ok .bogus : Except String ValidationStatus) ≠ .ok .bogus ∧
        (e.ad → (.ok .bogus : Except String ValidationStatus) = .ok .secure)) ↔
    ((.ok .bogus : Except String ValidationStatus) = .ok .bogus →
      ¬ Live (sampleWorld 0x8400)
        (resolveEntry (sampleConfig .bogus) (sampleWorld 0x8400) sampleName .a sampleStart).2 sampleName .a)) ∧
    (∃ e, (resolveEntry (sampleConfig .secure) bareZone Name.Short.ba .a afterDenial).1 = .ok e ∧
      e.rcode = .nxDomain ∧ e.ad) ∧
    ∀ e, (resolveEntry (sampleConfig .secure) bareZone Name.Short.ba .a afterDenial).1 = .ok e →
      (.ok .secure : Except String ValidationStatus) ≠ .ok .bogus ∧
        (e.ad → (.ok .secure : Except String ValidationStatus) = .ok .secure) := by
  refine ⟨?_, ?_, ?_⟩
  · have hindex : (resolveEntry (sampleConfig .bogus) (sampleWorld 0x8400) sampleName .a sampleStart).2.denials =
        .empty := rfl
    refine @resolveEntry_safe_iff _ _ _ _ _ _ (fun _ _ => .ok .bogus) rfl rfl ?_
      (.call sampleName .a .initial fun _ => honestIndex_empty) ?_
    · rintro n t resp ⟨i, server, id, hresp⟩ had
      cases hresp
      exact absurd had (by decide)
    · rw [hindex]
      exact fun _ => honestIndex_empty
  · exact ⟨_, rfl, by decide +kernel, by decide +kernel⟩
  · exact (@resolveEntry_safe_iff _ _ _ _ _ _ (fun _ _ => .ok .secure) rfl rfl (fun _ _ _ _ _ => rfl)
      (.call sampleName .a .initial fun _ => honestIndex_empty) fun _ _ _ _ _ => rfl).mpr nofun

/-- A bogus answer is refused at first and comes out of the cache afterwards; an unvouched AD bit is returned with an
answer that is not secure. -/
theorem resolveEntry_unsafe :
    (resolveEntry (sampleConfig .bogus) (sampleWorld 0x8400) sampleName .a sampleStart).1 = .error .bogusAnswer ∧
    (∃ e, (resolveEntry (sampleConfig .bogus) (sampleWorld 0x8400) sampleName .a
      (resolveEntry (sampleConfig .bogus) (sampleWorld 0x8400) sampleName .a sampleStart).2).1 = .ok e) ∧
    ∃ e, (resolveEntry (sampleConfig .insecure) (sampleWorld 0x8420) sampleName .a sampleStart).1 = .ok e ∧ e.ad := by
  refine ⟨by decide, ?_, ?_⟩
  · exact ⟨⟨(sampleResponse 0x8400).answers, [], [], 0, true, false, 60 * second⟩, by decide⟩
  · exact ⟨⟨(sampleResponse 0x8420).answers, [], [], 0, true, true, 60 * second⟩, by decide, rfl⟩

end Acidns.Recursive.Resolver
