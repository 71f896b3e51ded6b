import Acidns.Recursive.Walk
import Mathlib

/-!
# Warm and cold answers

Without a validator, a first call for a name and a type resolves it and caches the entry of its first
leg; a later call returns that entry. The two agree where the first leg is the whole answer: the
response to the question itself holds no CNAME that has to be followed, and nothing that the filter
keeps for names further down a chain.
-/

namespace Acidns.Recursive.Resolver

open Program

variable {Idx : Type} {cfg : Config Idx} {world : World} {s : State Idx} {name : Name} {t : RRType}

/-! ### Responses that are the whole answer -/

/-- A response to a question that answers it by records of the name alone, which fit in an entry. -/
structure SelfContained (cfg : Config Idx) (name : Name) (t : RRType) (resp : Message) : Prop where
  owned : ∀ r ∈ resp.answers, Reaches resp.answers (nameKey name) (nameKey r.name) → r.name.equal name
  unfollowed : t = .cname ∨ pickCNAMETarget resp.answers name = none ∨ hasTypeAt resp.answers name t
  fits : cfg.cache.maxRecordsPerEntry = 0 ∨ resp.answers.length ≤ cfg.cache.maxRecordsPerEntry

section Entry

variable {resp : Message} {now : Int}

theorem mem_entryFromResponse_answer {r : Record} : r ∈ (entryFromResponse cfg name resp now).answer ↔
    r ∈ resp.answers ∧ Reaches resp.answers (nameKey name) (nameKey r.name) := by
  rw [← mem_cnameChain]
  exact List.mem_filter.trans (and_congr_right' decide_eq_true_iff)

section

variable (h : SelfContained cfg name t resp)

include h

theorem SelfContained.recordsAt_answer :
    recordsAt (entryFromResponse cfg name resp now).answer name = (entryFromResponse cfg name resp now).answer := by
  apply List.filter_eq_self.mpr
  intro r hr
  obtain ⟨hmem, hreach⟩ := mem_entryFromResponse_answer.mp hr
  exact h.owned r hmem hreach

theorem SelfContained.aggregate_answer :
    aggregate emptyEntry (entryFromResponse cfg name resp now)
      (recordsAt (entryFromResponse cfg name resp now).answer name) = entryFromResponse cfg name resp now := by
  rw [aggregate, if_pos ⟨rfl, rfl⟩, h.recordsAt_answer]

theorem SelfContained.unfollowed_answer :
    t = .cname ∨ pickCNAMETarget (entryFromResponse cfg name resp now).answer name = none ∨
      hasTypeAt (entryFromResponse cfg name resp now).answer name t := by
  refine h.unfollowed.imp_right (Or.imp (fun hnone => ?_) fun htype => ?_)
  · refine List.findSome?_eq_none_iff.mpr fun r hr => ?_
    exact List.findSome?_eq_none_iff.mp hnone r (mem_entryFromResponse_answer.mp hr).1
  · obtain ⟨r, hr, hat⟩ := List.any_eq_true.mp htype
    refine List.any_eq_true.mpr ⟨r, mem_entryFromResponse_answer.mpr ⟨hr, ?_⟩, hat⟩
    rw [Name.equal_iff.mp (of_decide_eq_true hat).2]
    exact .refl

theorem SelfContained.capped_answer :
    (MemoryCache.capped cfg.cache (entryFromResponse cfg name resp now)).answer =
      (entryFromResponse cfg name resp now).answer := by
  apply MemoryCache.capped_answer
  exact h.fits.imp_right fun hle => Nat.le_trans (List.length_filter_le _ _) hle

end
end Entry

/-! ### An entry that stays

`Kept` is the invariant of the calls in between: until it expires, the entry is under its key, unless
a full shard has been found since. A call for the same key can only replace it after a miss, and then
`Gone` holds from there on. -/

/-- The entry is cached until it expires, unless a shard was found full after `n` times. -/
def Kept (world : World) (k : CacheKey) (x : Entry) (n : Nat) (s : State Idx) : Prop :=
  n ≤ s.cache.evictions ∧
    (s.cache.evictions = n → world.clock s.tick < x.expiresAt → s.cache.entries.lookup k = some x)

/-- The entry has expired, or a shard was found full after `n` times. -/
def Gone (world : World) (x : Entry) (n : Nat) (s : State Idx) : Prop :=
  n ≤ s.cache.evictions ∧ (s.cache.evictions = n → x.expiresAt ≤ world.clock s.tick)

section Kept

variable {k : CacheKey} {x : Entry} {n levels : Nat}

theorem Gone.kept (h : Gone world x n s) : Kept world k x n s :=
  ⟨h.1, fun hroom hlive => absurd (h.2 hroom) (by omega)⟩

variable (hclock : Monotone world.clock)
include hclock

theorem clock_tick (s : State Idx) : world.clock s.tick ≤ world.clock (s.tick + 1) := hclock (Nat.le_succ _)

theorem stable_kept : Stable (Kept world k x n : State Idx → Prop) where
  tick s hs := ⟨hs.1, fun hroom hlive => hs.2 hroom (Int.lt_of_le_of_lt (clock_tick hclock s) hlive)⟩
  inflight _ _ hs := hs
  nsInProgress _ _ hs := hs

theorem stable_gone : Stable (Gone world x n : State Idx → Prop) where
  tick s hs := ⟨hs.1, fun hroom => Int.le_trans (hs.2 hroom) (clock_tick hclock s)⟩
  inflight _ _ hs := hs
  nsInProgress _ _ hs := hs

theorem keeps_cacheGet_kept : Keeps (Kept world k x n) (cacheGet world name t : Resolver Idx _) fun _ => True := by
  intro s hs
  refine ⟨⟨by rw [MemoryCache.evictions_get]; exact hs.1, fun hroom hlive => ?_⟩, trivial⟩
  rw [MemoryCache.evictions_get] at hroom
  have hlive' := Int.lt_of_le_of_lt (clock_tick hclock s) hlive
  exact MemoryCache.lookup_get (hs.2 hroom hlive') hlive'

theorem keeps_cacheGet_gone : Keeps (Gone world x n) (cacheGet world name t : Resolver Idx _) fun _ => True := by
  intro s hs
  refine ⟨⟨by rw [MemoryCache.evictions_get]; exact hs.1, fun hroom => ?_⟩, trivial⟩
  rw [MemoryCache.evictions_get] at hroom
  exact Int.le_trans (hs.2 hroom) (clock_tick hclock s)

theorem gone_of_miss (hs : Kept world (key name RRClass.classIN t) x n s)
    (hmiss : (s.cache.get (key name RRClass.classIN t) (world.clock s.tick)).1 = none) :
    Gone world x n (cacheGet world name t s).2 := by
  rw [cacheGet_apply]
  refine ⟨by rw [MemoryCache.evictions_get]; exact hs.1, fun hroom => ?_⟩
  rw [MemoryCache.evictions_get] at hroom
  refine Int.le_trans (Int.not_lt.mp fun hlive => ?_) (clock_tick hclock s)
  rw [MemoryCache.get_of_lookup (hs.2 hroom hlive) hlive] at hmiss
  cases hmiss

theorem keeps_cachePut_gone {e : Entry} :
    Keeps (Gone world x n) (cachePut cfg world name t e : Resolver Idx _) fun _ => True := by
  intro s hs
  have hle := @MemoryCache.evictions_le_put cfg.cache s.cache (key name RRClass.classIN t) e (world.clock s.tick)
  refine ⟨⟨Nat.le_trans hs.1 hle, fun hroom => ?_⟩, trivial⟩
  exact Int.le_trans (hs.2 (Nat.le_antisymm (hroom ▸ hle) hs.1)) (clock_tick hclock s)

theorem keeps_cachePut_kept {e : Entry} (hk : key name RRClass.classIN t ≠ k) :
    Keeps (Kept world k x n) (cachePut cfg world name t e : Resolver Idx _) fun _ => True := by
  intro s hs
  have hle := @MemoryCache.evictions_le_put cfg.cache s.cache (key name RRClass.classIN t) e (world.clock s.tick)
  refine ⟨⟨Nat.le_trans hs.1 hle, fun hroom hlive => ?_⟩, trivial⟩
  have hroom' : s.cache.evictions = n := Nat.le_antisymm (hroom ▸ hle) hs.1
  rw [MemoryCache.lookup_put_ne (Ne.symm hk) (hroom.trans hroom'.symm)]
  exact hs.2 hroom' (Int.lt_of_le_of_lt (clock_tick hclock s) hlive)

theorem missRules_gone : MissRules cfg world (Gone world x n) (fun _ => True) name t where
  stable := stable_gone hclock
  put _ _ := keeps_cachePut_gone hclock
  denial _ _ _ _ _ _ := trivial
  response _ _ _ := trivial

theorem missRules_kept (hk : key name RRClass.classIN t ≠ k) :
    MissRules cfg world (Kept world k x n) (fun _ => True) name t where
  stable := stable_kept hclock
  put _ _ := keeps_cachePut_kept hclock hk
  denial _ _ _ _ _ _ := trivial
  response _ _ _ := trivial

theorem keeps_resolveDepth_gone :
    Keeps (Gone world x n) (resolveDepth cfg world levels name t : Resolver Idx _) fun _ => True := by
  induction levels generalizing name t with
  | zero => exact keeps_fail
  | succ levels ih =>
    refine keeps_bind (keeps_cacheGet_gone hclock) fun cached _ => ?_
    cases cached with
    | some e => exact keeps_pure trivial
    | none => exact (missRules_gone hclock).keeps_resolveMiss fun n t => ih

theorem keeps_resolveDepth_kept :
    Keeps (Kept world k x n) (resolveDepth cfg world levels name t : Resolver Idx _) fun _ => True := by
  induction levels generalizing name t with
  | zero => exact keeps_fail
  | succ levels ih =>
    by_cases hk : key name RRClass.classIN t = k
    · subst hk
      intro s hs
      rw [resolveDepth, bind_of_ok cacheGet_apply]
      cases hget : (s.cache.get (key name RRClass.classIN t) (world.clock s.tick)).1 with
      | some e => exact ⟨(keeps_cacheGet_kept hclock).state hs, trivial⟩
      | none =>
        -- From here on the entry is gone, and the walk may cache what it finds.
        have hgone := gone_of_miss hclock hs hget
        have hkeeps : Keeps (Gone world x n) (resolveMiss cfg world (resolveDepth cfg world levels) name t)
            fun _ => True := (missRules_gone hclock).keeps_resolveMiss fun n t => keeps_resolveDepth_gone hclock
        exact Triple.mono hkeeps (fun _ h => h) (fun _ _ h => ⟨h.1.kept, h.2⟩) (fun _ h => h.kept) _ hgone
    · refine keeps_bind (keeps_cacheGet_kept hclock) fun cached _ => ?_
      cases cached with
      | some e => exact keeps_pure trivial
      | none => exact (missRules_kept hclock hk).keeps_resolveMiss fun n t => ih

theorem kept_of_runs {s' : State Idx} (h : Kept world k x n s) (hruns : Runs cfg world s s') :
    Kept world k x n s' := by
  induction hruns with
  | refl => exact h
  | call name t _ ih =>
    exact (keeps_resolveEntry (stable_kept hclock) (fun _ _ hs => hs) (keeps_cacheGet_kept hclock) fun cur =>
      keeps_resolveDepth_kept hclock).state ih

end Kept

/-! ### The first call -/

section Cold

variable {levels : Nat} {lookup : Name → RRType → Resolver Idx Entry}

/-- The entry is that of a response, and is cached while it lives. -/
def Resolved (cfg : Config Idx) (world : World) (name : Name) (t : RRType) (e : Entry) (s : State Idx) : Prop :=
  (∃ resp now, IsResponse world name t resp ∧ e = entryFromResponse cfg name resp now) ∧
    (world.clock s.tick < e.expiresAt →
      s.cache.entries.lookup (key name RRClass.classIN t) = some (MemoryCache.capped cfg.cache e))

theorem stable_true : Stable (fun _ => True : State Idx → Prop) :=
  ⟨fun _ _ => trivial, fun _ _ _ => trivial, fun _ _ _ => trivial⟩

theorem keeps_true {α : Type} {p : Resolver Idx α} : Keeps (fun _ => True) p fun _ => True := by
  intro s _
  split
  · exact ⟨trivial, trivial⟩
  · trivial

theorem not_aggressive (hvalidator : cfg.validator = none) : cfg.aggressiveNSEC = false := by
  by_contra hon
  have hsome := cfg.aggressive_validated (by simpa using hon)
  rw [hvalidator] at hsome
  cases hsome

theorem stable_resolved (hclock : Monotone world.clock) {e : Entry} :
    Stable (Resolved cfg world name t e : State Idx → Prop) where
  tick s hs := ⟨hs.1, fun hlive => hs.2 (Int.lt_of_le_of_lt (clock_tick hclock s) hlive)⟩
  inflight _ _ hs := hs
  nsInProgress _ _ hs := hs

variable (hclock : Monotone world.clock) (hvalidator : cfg.validator = none)
include hclock hvalidator

theorem triple_resolveMiss_cold :
    Triple (fun _ => True) (resolveMiss cfg world lookup name t) (Resolved cfg world name t) fun _ => True := by
  have hsynth : synthesise cfg world name t = (pure none : Resolver Idx _) := by
    rw [synthesise, not_aggressive hvalidator]
    rfl
  rw [resolveMiss, hsynth]
  refine triple_singleflight stable_true (fun e => stable_resolved hclock) (fun _ _ _ => trivial) ?_
  refine triple_resolveDepthInner stable_true (fun n t => keeps_true) fun n resp hresp hn s _ => ?_
  rw [Name.equal_iff.mp hn] at hresp
  exact ⟨⟨resp, world.clock s.tick, hresp, rfl⟩, fun _ => MemoryCache.lookup_put⟩

def Absent (name : Name) (t : RRType) (s : State Idx) : Prop :=
  s.cache.entries.lookup (key name RRClass.classIN t) = none

theorem triple_resolveDepth_cold :
    Triple (Absent name t) (resolveDepth cfg world levels name t) (Resolved cfg world name t) fun _ => True := by
  cases levels with
  | zero => exact triple_fail fun _ _ => trivial
  | succ levels =>
    intro s hs
    have hmiss : (s.cache.get (key name RRClass.classIN t) (world.clock s.tick)).1 = none := by
      rw [MemoryCache.get, show s.cache.entries.lookup _ = none from hs]
    rw [resolveDepth, bind_of_ok cacheGet_apply, hmiss]
    exact triple_resolveMiss_cold hclock hvalidator _ trivial

/-- A cold resolution caches the entry it returns. -/
theorem triple_resolveFresh_cold (hself : ∀ resp, IsResponse world name t resp → SelfContained cfg name t resp) :
    Triple (Absent name t) (resolveFresh cfg world name t) (Resolved cfg world name t) fun _ => True := by
  have hdone : ∀ {e : Entry}, Triple (Resolved cfg world name t e) (pure e : Resolver Idx Entry)
      (Resolved cfg world name t) fun _ => True := triple_pure fun s hs => hs
  have hfollow : Triple (Absent name t) (resolveDepthFollow cfg world name t) (Resolved cfg world name t)
      fun _ => True := by
    unfold resolveDepthFollow
    cases cfg.maxCNAMEs with
    | zero => exact triple_fail fun _ _ => trivial
    | succ n =>
      unfold resolveDepthFollowLoop
      refine triple_bind (triple_resolveDepth_cold hclock hvalidator) fun entry => ?_
      refine triple_assume (fun s hs => hs.1) ?_
      rintro ⟨resp, now, hresp, rfl⟩
      rw [(hself resp hresp).aggregate_answer]
      refine triple_ite (fun _ => hdone) fun hcname => ?_
      split
      · exact hdone
      · rename_i target htarget
        refine triple_ite (fun _ => hdone) fun htype => ?_
        rcases (hself resp hresp).unfollowed_answer with h | h | h
        · exact absurd h hcname
        · exact absurd (htarget.symm.trans h) nofun
        · exact absurd h htype
  have hharvest : ∀ entry, harvest cfg world entry = (pure () : Resolver Idx Unit) := fun entry =>
    if_neg fun h => absurd h.1 (by rw [not_aggressive hvalidator]; exact Bool.false_ne_true)
  refine triple_bind hfollow fun entry => ?_
  rw [validate, hvalidator]
  refine triple_bind hdone fun entry' => ?_
  rw [hharvest]
  exact hdone

end Cold

def recordData (r : Record) : Name × RRType × RData := (r.name, r.type, r.rd)

theorem map_recordData_cloneRecordsWithTTL {rs : List Record} {ttl : Duration} :
    (MemoryCache.cloneRecordsWithTTL rs ttl).map recordData = rs.map recordData := by
  rw [MemoryCache.cloneRecordsWithTTL, List.map_map]
  rfl

/-- If every response is the whole answer, a call on an empty cache and every later one before its entry expires return
the same, as long as no shard is found full meanwhile. -/
theorem resolveEntry_warm {start s : State Idx} {e : Entry} (hclock : Monotone world.clock)
    (hvalidator : cfg.validator = none)
    (hself : ∀ resp, IsResponse world name t resp → SelfContained cfg name t resp)
    (hempty : start.cache = .empty) (hcold : (resolveEntry cfg world name t start).1 = .ok e)
    (hruns : Runs cfg world (resolveEntry cfg world name t start).2 s)
    (hroom : s.cache.evictions = (resolveEntry cfg world name t start).2.cache.evictions)
    (hlive : world.clock s.tick < e.expiresAt) :
    ∃ e', (resolveEntry cfg world name t s).1 = .ok e' ∧ e'.rcode = e.rcode ∧
      e'.answer.map recordData = e.answer.map recordData := by
  have hmiss : (start.cache.get (key name RRClass.classIN t) (world.clock start.tick)).1 = none := by
    rw [hempty]
    rfl
  have habsent : Absent name t (cacheGet world name t start).2 := by
    exact MemoryCache.lookup_get_none hmiss
  rw [resolveEntry_of_miss hmiss] at hcold hruns hroom
  have hresolved := (triple_resolveFresh_cold hclock hvalidator hself).ok habsent (Prod.ext hcold rfl)
  obtain ⟨⟨resp, now, hresp, rfl⟩, hstored⟩ := hresolved
  have hkept := kept_of_runs hclock ⟨Nat.le_refl _, fun _ hlive => hstored (by simpa using hlive)⟩ hruns
  have hlookup := hkept.2 hroom (by simpa using hlive)
  have hget := MemoryCache.get_of_lookup hlookup (by simpa using hlive)
  refine ⟨_, resolveEntry_of_get (congrArg Prod.fst hget), by simp, ?_⟩
  rw [MemoryCache.cloneEntryWithTTL, map_recordData_cloneRecordsWithTTL, (hself resp hresp).capped_answer]

/-! ### A chain into another zone -/

def aliasName : Name := Name.Short.a

def targetName : Name := Name.Short.b

def addressRecord (last : UInt8) : Record := newRecord targetName (60 * second) (.a ⟨[192, 0, 2, last], rfl⟩)

def aliasWorld (bundled : List Record) : World where
  clock _ := 0
  roots _ := [⟨[192, 0, 2, 1], 53⟩]
  rank _ servers := servers
  take _ _ := true
  randomID _ := .ok 0
  exchange _ _ q :=
    if q.questions.any fun question => question.name.equal aliasName then
      .ok ⟨0, 0x8400, q.questions, newRecord aliasName (60 * second) (.cname targetName) :: bundled, [], [], none⟩
    else .ok ⟨0, 0x8400, q.questions, [addressRecord 2], [], [], none⟩
  expired _ := false

def plainConfig : Config Unit :=
  .new ⟨fun _ _ _ _ => none, fun _ _ _ _ => none, fun _ _ _ => ()⟩ none oneShard

/-- The address of the target, asked for twice. -/
theorem resolveEntry_warm_target :
    ∃ e', (resolveEntry plainConfig (aliasWorld []) targetName .a
        (resolveEntry plainConfig (aliasWorld []) targetName .a (.initial ())).2).1 = .ok e' ∧ e'.rcode = 0 ∧
      e'.answer.map recordData = [addressRecord 2].map recordData := by
  refine @resolveEntry_warm Unit plainConfig (aliasWorld []) targetName .a (.initial ()) _
    ⟨[addressRecord 2], [], [], 0, true, false, 60 * second⟩ monotone_const rfl ?_ rfl (by decide) .refl rfl (by decide)
  rintro resp ⟨i, server, id, hresp⟩
  cases show Except.ok _ = Except.ok resp from hresp
  refine ⟨fun r hr _ => ?_, .inr (.inl rfl), .inr (show 1 ≤ 256 by decide)⟩
  obtain rfl := List.mem_singleton.mp hr
  rfl

/-- The first call follows the alias; the second returns the address that came bundled with it. -/
theorem resolveEntry_warm_alias :
    (∃ e, (resolveEntry plainConfig (aliasWorld [addressRecord 66]) aliasName .a (.initial ())).1 = .ok e ∧
      recordData (addressRecord 2) ∈ e.answer.map recordData ∧
      recordData (addressRecord 66) ∉ e.answer.map recordData) ∧
    ∃ e, (resolveEntry plainConfig (aliasWorld [addressRecord 66]) aliasName .a
        (resolveEntry plainConfig (aliasWorld [addressRecord 66]) aliasName .a (.initial ())).2).1 = .ok e ∧
      recordData (addressRecord 66) ∈ e.answer.map recordData := by
  refine ⟨⟨⟨[newRecord aliasName (60 * second) (.cname targetName), addressRecord 2], [], [], 0, true, false,
    60 * second⟩, by decide, by decide, by decide⟩, ?_⟩
  exact ⟨⟨[newRecord aliasName (60 * second) (.cname targetName), addressRecord 66], [], [], 0, true, false,
    60 * second⟩, by decide, by decide⟩

end Acidns.Recursive.Resolver
