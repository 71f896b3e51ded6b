import Acidns.Forward.Isolation

/-!
# Replies from the cache

What `makeEntry` of `forward/forward.go` keeps of a response, and for how long. The live reply and the
reply from the cache are assembled by two functions: `rebuildForClient` passes on what the upstream
sent, `buildFromCache` what the entry has of it. The two agree where the entry has all of it.
-/

namespace Acidns.Forward

open List

variable {now : Int} {q resp : Message}

/-! ### How long a denial is kept -/

/-- The bound that an SOA sets on the lifetime of a denial, for each SOA of the section. -/
def negativeBounds (authority : List Record) (maxNeg : Duration) : List Duration :=
  authority.filterMap fun r => r.asSOA.map fun soa => min (min r.ttl soa.minimum) maxNeg

theorem negativeTTLFromSOA_eq (authority : List Record) (maxNeg : Duration) :
    negativeTTLFromSOA authority maxNeg =
      (negativeBounds authority maxNeg).head?.bind fun ttl => if ttl ≤ 0 then none else some ttl := by
  rw [negativeTTLFromSOA, negativeBounds, List.head?_filterMap]

theorem le_of_mem_negativeBounds {authority : List Record} {maxNeg b : Duration}
    (h : b ∈ negativeBounds authority maxNeg) : b ≤ maxNeg := by
  grind [negativeBounds, Record.asSOA]

def IsDenial (resp : Message) : Prop :=
  resp.flags.rcode = RCODE.nxDomain ∨ (resp.flags.rcode = RCODE.noError ∧ resp.answers = [])

/-- A denial is kept no longer than each SOA allows, and not at all if one allows no time. -/
def NegativeBounded (resp : Message) (cfg : Config) (now : Int) : Prop :=
  ∀ r ∈ resp.authorities, ∀ soa, r.asSOA = some soa →
    (∀ e, makeEntry resp cfg now = some e → e.expiresAt - now ≤ min (min r.ttl soa.minimum) cfg.maxNegTTL) ∧
    (min (min r.ttl soa.minimum) cfg.maxNegTTL = 0 → makeEntry resp cfg now = none)

variable {cfg : Config} {e : Entry}

theorem negativeBounded_iff_bounds : NegativeBounded resp cfg now ↔
    ∀ b ∈ negativeBounds resp.authorities cfg.maxNegTTL,
      (∀ ttl ∈ (makeEntry resp cfg now).map fun e => e.expiresAt - now, ttl ≤ b ∧ b ≠ 0) := by
  have hsplit : ∀ b : Duration, ((∀ e, makeEntry resp cfg now = some e → e.expiresAt - now ≤ b) ∧
      (b = 0 → makeEntry resp cfg now = none)) ↔
        ∀ ttl ∈ (makeEntry resp cfg now).map fun e => e.expiresAt - now, ttl ≤ b ∧ b ≠ 0 := by
    intro b
    cases makeEntry resp cfg now with
    | none => simp
    | some e => simp
  constructor
  · intro h b hb
    obtain ⟨r, hr, hb⟩ := mem_filterMap.mp hb
    obtain ⟨soa, hsoa, rfl⟩ := Option.map_eq_some_iff.mp hb
    exact (hsplit _).mp (h r hr soa hsoa)
  · intro h r hr soa hsoa
    apply (hsplit _).mpr
    apply h
    apply mem_filterMap.mpr
    exact ⟨r, hr, by rw [hsoa]; rfl⟩

theorem lifetime_makeEntry (h : IsDenial resp) :
    (makeEntry resp cfg now).map (fun e => e.expiresAt - now) =
      if resp.flags.rcode = RCODE.nxDomain then
        some ((negativeTTLFromSOA resp.authorities cfg.maxNegTTL).getD cfg.maxNegTTL)
      else negativeTTLFromSOA resp.authorities cfg.maxNegTTL := by
  grind [RCODE.noError, makeEntry, RCODE.nxDomain, IsDenial, negativeTTLFromSOA]

/-- The first SOA allows some time, and no other less; or it allows none, and there is just no such data. -/
def FirstBounds (resp : Message) (cfg : Config) : Prop :=
  ∀ first ∈ (negativeBounds resp.authorities cfg.maxNegTTL).head?,
    if 0 < first then ∀ b ∈ negativeBounds resp.authorities cfg.maxNegTTL, first ≤ b
    else resp.flags.rcode = RCODE.nxDomain →
      cfg.maxNegTTL < 0 ∧ ∀ b ∈ negativeBounds resp.authorities cfg.maxNegTTL, b = cfg.maxNegTTL

/-- **The lifetime of denials.** A denial is kept within the bounds of its SOAs exactly if the first of them sets the
least, and allows some time or comes without NXDOMAIN. -/
theorem negativeBounded_iff (resp : Message) (cfg : Config) (now : Int) (hdenial : IsDenial resp) :
    NegativeBounded resp cfg now ↔ FirstBounds resp cfg := by
  rw [negativeBounded_iff_bounds, FirstBounds, lifetime_makeEntry hdenial, negativeTTLFromSOA_eq]
  have hmax : ∀ b ∈ negativeBounds resp.authorities cfg.maxNegTTL, b ≤ cfg.maxNegTTL := fun b =>
    le_of_mem_negativeBounds
  cases hbounds : negativeBounds resp.authorities cfg.maxNegTTL with
  | nil => simp
  | cons first rest =>
    rw [hbounds] at hmax
    simp only [List.head?_cons, Option.mem_some_iff, forall_eq', Option.bind_some]
    by_cases hpos : 0 < first
    · -- the first bound is the lifetime
      rw [if_neg (not_le.mpr hpos), if_pos hpos]
      simp only [Option.getD_some, ite_self, Option.mem_some_iff, forall_eq']
      constructor
      · exact fun h b hb => (h b hb).1
      · intro h b hb
        exact ⟨h b hb, (lt_of_lt_of_le hpos (h b hb)).ne'⟩
    · grind [le_antisymm]

def soaOfA (ttl : Duration) : Record := newRecord Name.Short.a ttl (.soa ⟨.root, .root, 1, 0, 0, 0, ttl⟩)

def nxDomainResponse (ttl : Duration) : Message :=
  ⟨2, ((0 : Flags).withResponse true).withRCODE RCODE.nxDomain, [newQuestion Name.Short.ba .a], [], [soaOfA ttl], [], none⟩

theorem isDenial_nxDomainResponse (ttl : Duration) : IsDenial (nxDomainResponse ttl) := by
  apply Or.inl
  show (((0 : Flags).withResponse true).withRCODE RCODE.nxDomain).rcode = RCODE.nxDomain
  decide

theorem negativeBounded_iff_minute : IsDenial (nxDomainResponse (60 * second)) ∧
    NegativeBounded (nxDomainResponse (60 * second)) defaultConfig 0 := by
  refine ⟨isDenial_nxDomainResponse _, ?_⟩
  apply (negativeBounded_iff _ _ _ (isDenial_nxDomainResponse _)).mpr
  unfold FirstBounds
  decide

/-- **A denial outlives its SOA.** With a TTL and a MINIMUM of zero, NXDOMAIN is kept for five minutes. -/
theorem nxDomain_outlives_soa : IsDenial (nxDomainResponse 0) ∧ soaOfA 0 ∈ (nxDomainResponse 0).authorities ∧
    (soaOfA 0).asSOA.map (fun soa => min (min (soaOfA 0).ttl soa.minimum) defaultConfig.maxNegTTL) = some 0 ∧
    (makeEntry (nxDomainResponse 0) defaultConfig 0).map (fun e => e.expiresAt) = some (300 * second) :=
  ⟨isDenial_nxDomainResponse 0, mem_singleton_self _, rfl, by decide⟩

/-! ### The reply that is sent when an entry is made -/

/-- The reply was sent to the query that made the entry, from the response the entry is made of. -/
def FirstReply (cfg : Config) (item : CacheItem) (r : Reply) : Prop :=
  ∃ qq now, r.query.questions.head? = some qq ∧ State.keyOf r.query qq = item.key ∧
    makeEntry (filterBailiwick qq.name item.origin.response) cfg now = some item.val ∧
    r.message = rebuildForClient r.query (filterBailiwick qq.name item.origin.response)

section Steps

variable {cfg : Config} {s s' : State}

/-- What a step can do to replies and cache. -/
structure Grows (cfg : Config) (s s' : State) : Prop where
  replies : ∀ r ∈ s.replies, r ∈ s'.replies
  cache : ∀ item ∈ s'.cache, item ∈ s.cache ∨ ∃ r ∈ s'.replies, FirstReply cfg item r

theorem Grows.of_subset (hreplies : ∀ r ∈ s.replies, r ∈ s'.replies) (hcache : ∀ item ∈ s'.cache, item ∈ s.cache) :
    Grows cfg s s' :=
  ⟨hreplies, fun item hitem => .inl (hcache item hitem)⟩

theorem Grows.reply (q m : Message) (hcache : ∀ item ∈ s'.cache, item ∈ s.cache) (hreplies : s'.replies = s.replies) :
    Grows cfg s (s'.reply q m) :=
  .of_subset (fun _ hr => .tail _ (hreplies ▸ hr)) hcache

theorem grows_serve (q : Message) (now : Int) : Grows cfg s (s.serve cfg q now) := by
  have hself : Grows cfg s s := .of_subset (fun _ h => h) fun _ h => h
  have hreply : ∀ m, Grows cfg s (s.reply q m) := fun m => .reply q m (fun _ h => h) rfl
  unfold State.serve
  split
  · exact hreply _
  split
  · exact hself
  · exact hreply _
  split
  · exact hreply _
  split
  · exact hself
  split
  · exact hreply _
  · rename_i qq _ _ _ _
    have hmem : ∀ item ∈ (s.cache.get (State.keyOf q qq) now).2, item ∈ s.cache := fun item => Cache.mem_of_mem_get
    split
    · rename_i item cache hget
      rw [hget] at hmem
      exact .reply q _ hmem rfl
    · rename_i cache hget
      rw [hget] at hmem
      exact .of_subset (fun _ h => h) hmem

theorem grows_join {i : Nat} {id : UInt16} (h : s.join cfg i id = some s') : Grows cfg s s' := by
  obtain ⟨q, -, h⟩ := Option.bind_eq_some_iff.mp h
  obtain ⟨qq, -, h⟩ := Option.bind_eq_some_iff.mp h
  dsimp only at h
  split at h
  · cases h
    exact .of_subset (fun _ hr => hr) fun _ hitem => hitem
  · split at h
    · cases h
      exact .reply q _ (fun _ hitem => hitem) rfl
    · cases h
      exact .of_subset (fun _ hr => hr) fun _ hitem => hitem

theorem grows_exchanged {c : Nat} {result : Except String Message} (h : s.exchanged c result = some s') :
    Grows cfg s s' := by
  obtain ⟨call, -, h⟩ := Option.bind_eq_some_iff.mp h
  split at h
  · cases h
  · cases h
    exact .of_subset (fun _ hr => hr) fun _ hitem => hitem

theorem grows_retire {c : Nat} (h : s.retire c = some s') : Grows cfg s s' := by
  obtain ⟨call, -, h⟩ := Option.bind_eq_some_iff.mp h
  split at h
  · cases h
  · cases h
    exact .of_subset (fun _ hr => hr) fun _ hitem => hitem

theorem grows_resume {i : Nat} {cancelled : Bool} (h : s.resume cfg i cancelled now = some s') :
    Grows cfg s s' := by
  obtain ⟨⟨q, c⟩, -, h⟩ := Option.bind_eq_some_iff.mp h
  obtain ⟨qq, hqq, h⟩ := Option.bind_eq_some_iff.mp h
  obtain ⟨call, -, h⟩ := Option.bind_eq_some_iff.mp h
  split at h
  · cases h
    exact .reply q _ (fun _ hitem => hitem) rfl
  split at h
  · cases h
  split at h
  · cases h
  · cases h
    exact .reply q _ (fun _ hitem => hitem) rfl
  · rename_i resp _
    cases h
    refine ⟨fun _ hr => .tail _ hr, fun item hitem => ?_⟩
    cases hentry : makeEntry (filterBailiwick qq.name resp) cfg now with
    | none =>
      simp only [State.reply, hentry] at hitem
      exact .inl hitem
    | some e =>
      simp only [State.reply, hentry] at hitem
      rcases Cache.mem_of_mem_put hitem with hitem | rfl
      · exact .inl hitem
      · exact .inr ⟨_, .head _, qq, now, hqq, rfl, hentry, rfl⟩

theorem grows_step {a : Action} (h : s.step cfg a = some s') : Grows cfg s s' := by
  cases a with
  | serve q now => exact Option.some.inj h ▸ grows_serve q now
  | join i id => exact grows_join h
  | exchanged c result => exact grows_exchanged h
  | retire c => exact grows_retire h
  | resume i cancelled now => exact grows_resume h
  | close =>
    cases h
    exact .of_subset (fun _ hr => hr) (forall_mem_nil _)

theorem FirstReply.exists_of_run {allowed : State → Action → Prop} (h : Run cfg allowed s) :
    ∀ item ∈ s.cache, ∃ r ∈ s.replies, FirstReply cfg item r := by
  induction h with
  | initial => exact forall_mem_nil _
  | step a _ _ hstep ih =>
    intro item hitem
    have hgrows := grows_step hstep
    rcases hgrows.cache item hitem with hold | hnew
    · obtain ⟨r, hr, hfirst⟩ := ih item hold
      exact ⟨r, hgrows.replies r hr, hfirst⟩
    · exact hnew

end Steps

/-! ### The reply from the cache -/

def IsAged (elapsed : Duration) (r r' : Record) : Prop :=
  r'.name = r.name ∧ r'.type = r.type ∧ r'.rd = r.rd ∧ r'.ttl = max (r.ttl - elapsed) 0

/-- The later reply says what the first said, of records that have aged. -/
structure Agrees (first later : Message) (elapsed : Duration) : Prop where
  rcode : later.flags.rcode = first.flags.rcode
  authenticData : later.flags.authenticData = first.flags.authenticData
  truncated : later.flags.truncated = first.flags.truncated
  edns : later.edns.map EDNS.extRCODE = first.edns.map EDNS.extRCODE
  answers : List.Forall₂ (IsAged elapsed) first.answers later.answers
  authorities : List.Forall₂ (IsAged elapsed) first.authorities later.authorities
  additionals : List.Forall₂ (IsAged elapsed) first.additionals later.additionals

theorem isAged_adjustTTL (elapsed : Duration) (r : Record) : IsAged elapsed r (adjustTTL elapsed r) :=
  ⟨rfl, rfl, rfl, rfl⟩

theorem forall₂_isAged (elapsed : Duration) (rs : List Record) :
    List.Forall₂ (IsAged elapsed) rs (rs.map (adjustTTL elapsed)) := by
  induction rs with
  | nil => exact .nil
  | cons r rs ih => exact .cons (isAged_adjustTTL elapsed r) ih

theorem makeEntry_eq_some (h : makeEntry resp cfg now = some e) :
    e.authority = resp.authorities ∧ e.additional = resp.additionals ∧
      e.rcode = resp.flags.rcode ∧ e.ad = resp.flags.authenticData ∧ e.insertedAt = now ∧
      e.answers = if resp.flags.rcode = RCODE.nxDomain then [] else resp.answers := by
  unfold makeEntry at h
  dsimp only at h
  split at h
  · rename_i hcode
    have hne : resp.flags.rcode ≠ RCODE.nxDomain := by rw [hcode]; decide
    rw [if_neg hne]
    split at h
    · split at h
      · cases h
      · cases h
        exact ⟨rfl, rfl, rfl, rfl, rfl, rfl⟩
    · rename_i hlen
      obtain ⟨ttl, -, rfl⟩ := Option.map_eq_some_iff.mp h
      have hnil : resp.answers = [] := length_eq_zero_iff.mp (by omega)
      exact ⟨rfl, rfl, rfl, rfl, rfl, hnil.symm⟩
  · grind

/-- Nothing of the response is lost in the cache. -/
def KeptWhole (resp : Message) : Prop := resp.edns = none ∧ (resp.flags.rcode = RCODE.nxDomain → resp.answers = [])

theorem agrees_iff_keptWhole {q' : Message} {now' : Int}
    (hentry : makeEntry resp cfg now = some e) (hflags : q'.flags = q.flags) :
    Agrees (rebuildForClient q resp) (buildFromCache q' e now') (now' - e.insertedAt) ↔ KeptWhole resp := by
  obtain ⟨hauthority, hadditional, hrcode, had, -, hanswers⟩ := makeEntry_eq_some hentry
  constructor
  · intro h
    refine ⟨?_, fun hcode => ?_⟩
    · have hedns : none = resp.edns.map EDNS.extRCODE := h.edns
      exact Option.map_eq_none_iff.mp hedns.symm
    · rw [if_pos hcode] at hanswers
      have haged : List.Forall₂ _ resp.answers (e.answers.map _) := h.answers
      rw [hanswers] at haged
      exact forall₂_nil_right_iff.mp haged
  · rintro ⟨hedns, hnil⟩
    have hsame : (buildFromCache q' e now').flags = (rebuildForClient q resp).flags := by
      simp only [buildFromCache, rebuildForClient, replyFlags, hflags, hrcode, had]
    have hall : e.answers = resp.answers := by
      rw [hanswers]
      split
      · rename_i hcode
        exact (hnil hcode).symm
      · rfl
    refine ⟨by rw [hsame], by rw [hsame], by rw [hsame], ?_, ?_, ?_, ?_⟩
    · simp only [buildFromCache, rebuildForClient, hedns]
    · exact hall ▸ forall₂_isAged _ e.answers
    · exact hauthority ▸ forall₂_isAged _ e.authority
    · exact hadditional ▸ forall₂_isAged _ e.additional

structure State.Hits (cfg : Config) (s : State) (q : Message) (now : Int) (qq : Question) (item : CacheItem) : Prop where
  live : s.closed = false
  accepted : preflightRequest q = .accept
  opcode : q.flags.opcode = Opcode.query
  question : q.questions.head? = some qq
  allowed : State.refusal cfg q qq = none
  found : (s.cache.get (State.keyOf q qq) now).1 = some item

theorem State.Hits.replies_serve {s : State} {qq : Question}
    {item : CacheItem} (h : s.Hits cfg q now qq item) :
    (s.serve cfg q now).replies = ⟨q, buildFromCache q item.val now⟩ :: s.replies := by
  obtain ⟨rest, hquestions⟩ : ∃ rest, q.questions = qq :: rest := List.head?_eq_some_iff.mp h.question
  rcases hget : s.cache.get (State.keyOf q qq) now with ⟨found, cache⟩
  have hfound := h.found
  rw [hget] at hfound
  obtain rfl : found = some item := hfound
  simp [State.serve, h.live, h.accepted, h.opcode, hquestions, h.allowed, hget, State.reply]

/-- **Warm and cold replies.** A reply from the cache agrees with those sent when the entry was made, to the same
question and flags, exactly if the entry has all of the response. -/
theorem warm_agrees_iff {cfg : Config} {s : State} (hrun : Run cfg (fun _ _ => True) s) {qq : Question}
    {item : CacheItem} (hhits : s.Hits cfg q now qq item) :
    ∃ warm, (s.serve cfg q now).replies = ⟨q, warm⟩ :: s.replies ∧
      (∃ first ∈ s.replies, FirstReply cfg item first) ∧
      ∀ first ∈ s.replies, FirstReply cfg item first →
        q.questions = first.query.questions → q.flags = first.query.flags →
        (Agrees first.message warm (now - item.val.insertedAt) ↔
          KeptWhole (filterBailiwick qq.name item.origin.response)) := by
  refine ⟨_, hhits.replies_serve, ?_, ?_⟩
  · exact FirstReply.exists_of_run hrun item (Cache.get_eq_some hhits.found).1
  · rintro first - ⟨qq₁, t, hqq₁, -, hentry, hmessage⟩ hquestions hflags
    obtain rfl : qq = qq₁ := Option.some.inj (hhits.question.symm.trans (hquestions ▸ hqq₁))
    rw [hmessage]
    exact agrees_iff_keptWhole hentry hflags

/-! ### A query asked twice -/

def answeredBy (q resp : Message) : List Action :=
  [.serve q 0, .join 0 2, .exchanged 0 (.ok resp), .retire 0, .resume 0 false 0]

def askedTwice (q resp : Message) : List Message :=
  (stateBehind (fun _ _ => True) (answeredBy q resp ++ [.serve q (10 * second)])).replies.map Reply.message

theorem warm_agrees_root :
    ∃ item warm, ((stateBehind (fun _ _ => True) (answeredBy (rootQuery false) uncheckedResponse)).serve defaultConfig
        (rootQuery false) (10 * second)).replies = [⟨rootQuery false, warm⟩] ++
          (stateBehind (fun _ _ => True) (answeredBy (rootQuery false) uncheckedResponse)).replies ∧
      ∃ first ∈ (stateBehind (fun _ _ => True) (answeredBy (rootQuery false) uncheckedResponse)).replies,
        FirstReply defaultConfig item first ∧ Agrees first.message warm (10 * second) := by
  have hrun := @run_stateBehind (fun _ _ => True) _ (answeredBy (rootQuery false) uncheckedResponse) (by decide +kernel)
  generalize hs : stateBehind (fun _ _ => True) (answeredBy (rootQuery false) uncheckedResponse) = s at hrun
  have hfound : ((s.cache.get (State.keyOf (rootQuery false) (newQuestion .root .ns)) (10 * second)).1.map
      fun item => (item.origin.response, item.val.insertedAt)) = some (uncheckedResponse, 0) := by
    rw [← hs]
    decide +kernel
  obtain ⟨item, hitem, hdata⟩ := Option.map_eq_some_iff.mp hfound
  obtain ⟨horigin, hinserted⟩ := Prod.mk.inj hdata
  have hlive : s.closed = false := by
    rw [← hs]
    decide +kernel
  have hqueries : ∀ r ∈ s.replies, r.query = rootQuery false := by
    rw [← hs]
    decide +kernel
  obtain ⟨warm, hwarm, ⟨first, hfirst, hmade⟩, hall⟩ :=
    warm_agrees_iff hrun ⟨hlive, by decide +kernel, by decide +kernel, rfl, by decide +kernel, hitem⟩
  have hquery := hqueries first hfirst
  refine ⟨item, warm, hwarm, first, hfirst, hmade, ?_⟩
  have hagrees := (hall first hfirst hmade (by rw [hquery]) (by rw [hquery])).mpr
    (by rw [horigin]; exact ⟨by decide +kernel, by decide +kernel⟩)
  rwa [hinserted] at hagrees

def ednsResponse : Message := { uncheckedResponse with edns := some ⟨1232, 1, 0, false, []⟩ }

def aliasQuery : Message := ⟨1, (0 : Flags).withRecursionDesired true, [newQuestion Name.Short.ba .a], [], [], [], none⟩

def aliasDenial : Message :=
  { nxDomainResponse (60 * second) with answers := [newRecord Name.Short.ba (60 * second) (.cname Name.Short.ca)] }

/-- **The cache forgets.** The second reply lacks the OPT record of the first, and the alias of a name that does not
exist. -/
theorem warm_disagrees : (∃ warm cold, askedTwice (rootQuery false) ednsResponse = [warm, cold] ∧
      cold.edns.map EDNS.extRCODE = some 1 ∧ ¬Agrees cold warm (10 * second)) ∧
    ∃ warm cold, askedTwice aliasQuery aliasDenial = [warm, cold] ∧
      cold.answers = aliasDenial.answers ∧ ¬Agrees cold warm (10 * second) := by
  constructor
  · have hreplies : (askedTwice (rootQuery false) ednsResponse).map (fun m => m.edns.map EDNS.extRCODE) =
        [none, some 1] := by decide +kernel
    obtain ⟨warm, rest, hwarm, hnone, hrest⟩ := map_eq_cons_iff.mp hreplies
    obtain ⟨cold, tail, rfl, hsome, htail⟩ := map_eq_cons_iff.mp hrest
    obtain rfl := map_eq_nil_iff.mp htail
    refine ⟨warm, cold, hwarm, hsome, fun h => ?_⟩
    have hedns := h.edns
    rw [hnone, hsome] at hedns
    cases hedns
  · have hreplies : (askedTwice aliasQuery aliasDenial).map (fun m => m.answers) = [[], aliasDenial.answers] := by
      decide +kernel
    obtain ⟨warm, rest, hwarm, hnil, hrest⟩ := map_eq_cons_iff.mp hreplies
    obtain ⟨cold, tail, rfl, hall, htail⟩ := map_eq_cons_iff.mp hrest
    obtain rfl := map_eq_nil_iff.mp htail
    refine ⟨warm, cold, hwarm, hall, fun h => ?_⟩
    have hanswers := h.answers
    rw [hnil, hall] at hanswers
    cases hanswers

end Acidns.Forward
