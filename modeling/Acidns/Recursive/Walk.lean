import Acidns.Recursive.Resolver

/-!
# Rules for walks

What a walk does to the state comes down to three things: bookkeeping, the lookups of name servers it
makes on the way, and the entry it caches at its end. The rules here say so once for every predicate
on the state that bookkeeping leaves alone, so that an invariant of the resolver is shown by looking
at the cache alone.
-/

namespace Acidns.Recursive.Resolver

open Program

variable {Idx : Type} {cfg : Config Idx} {world : World} {s : State Idx} {name : Name} {t : RRType}

/-! ### The cache as seen through the resolver -/

theorem cacheGet_apply : cacheGet world name t s =
    (.ok (s.cache.get (key name RRClass.classIN t) (world.clock s.tick)).1,
      { s with cache := (s.cache.get (key name RRClass.classIN t) (world.clock s.tick)).2, tick := s.tick + 1 }) :=
  rfl

/-- The cache would answer now. -/
def Live (world : World) (s : State Idx) (name : Name) (t : RRType) : Prop :=
  ∃ e, s.cache.entries.lookup (key name RRClass.classIN t) = some e ∧ world.clock s.tick < e.expiresAt

theorem resolveEntry_of_get {e : Entry}
    (h : (s.cache.get (key name RRClass.classIN t) (world.clock s.tick)).1 = some e) :
    (resolveEntry cfg world name t s).1 = .ok e := by
  rw [resolveEntry, bind_of_ok cacheGet_apply, h]
  rfl

theorem resolveEntry_of_miss (h : (s.cache.get (key name RRClass.classIN t) (world.clock s.tick)).1 = none) :
    resolveEntry cfg world name t s = resolveFresh cfg world name t (cacheGet world name t s).2 := by
  rw [resolveEntry, bind_of_ok cacheGet_apply, h, cacheGet_apply]

/-! ### Rules -/

/-- The predicate does not look at the clock or at what is in progress. -/
structure Stable (P : State Idx → Prop) : Prop where
  tick : ∀ s, P s → P { s with tick := s.tick + 1 }
  inflight : ∀ s keys, P s → P { s with inflight := keys }
  nsInProgress : ∀ s names, P s → P { s with nsInProgress := names }

/-- Some server gives this response. -/
def IsResponse (world : World) (name : Name) (t : RRType) (resp : Message) : Prop :=
  ∃ i server id, world.exchange i server (query id name t) = .ok resp

section Rules

variable {P : State Idx → Prop} {post : Entry → State Idx → Prop} {lookup : Name → RRType → Resolver Idx Entry}
  {target : Name}

theorem keeps_observe (hP : Stable P) {α : Type} (f : Nat → α) :
    Keeps P (observe f : Resolver Idx α) fun a => ∃ i, a = f i :=
  fun s hs => ⟨hP.tick s hs, s.tick, rfl⟩

theorem keeps_queryAnyLoop (hP : Stable P) {name : Name} {servers : List AddrPort} {lastErr : Option String}
    {skipped : Bool} :
    Keeps P (queryAnyLoop world name t servers lastErr skipped : Resolver Idx _) fun r =>
      IsResponse world name t r.1 := by
  induction servers generalizing lastErr skipped with
  | nil => cases lastErr <;> exact keeps_fail
  | cons s servers ih =>
    refine keeps_bind (keeps_observe hP _) fun allowed _ => ?_
    refine keeps_ite (fun _ => ih) fun _ => ?_
    refine keeps_bind (keeps_observe hP _) fun id _ => ?_
    cases id with
    | error e => exact keeps_fail
    | ok id =>
      refine keeps_bind (keeps_observe hP _) fun resp hresp => ?_
      obtain ⟨i, hresp⟩ := hresp
      cases resp with
      | ok resp => exact keeps_pure ⟨i, s, id, hresp.symm⟩
      | error e => exact keeps_bind (keeps_observe hP _) fun expired _ => keeps_ite (fun _ => keeps_fail) fun _ => ih

section Lookup

variable (hP : Stable P) (hlookup : ∀ n t, Keeps P (lookup n t) fun _ => True)

include hP hlookup

theorem keeps_resolveUngluedNS (ns : Name) : Keeps P (resolveUngluedNS lookup ns) fun _ => True := by
  refine keeps_bind keeps_gets fun busy _ => ?_
  refine keeps_ite (fun _ => keeps_pure trivial) fun _ => ?_
  refine keeps_bind (keeps_modify fun s hs => hP.nsInProgress s _ hs) fun _ _ => ?_
  refine keeps_bind (keeps_attempt (hlookup ns .a)) fun a4 _ => ?_
  refine keeps_bind (keeps_attempt (hlookup ns .aaaa)) fun a6 _ => ?_
  exact keeps_bind (keeps_modify fun s hs => hP.nsInProgress s _ hs) fun _ _ => keeps_pure trivial

theorem keeps_serversFromReferral (resp : Message) : Keeps P (serversFromReferral lookup resp) fun _ => True := by
  unfold serversFromReferral
  split
  · exact keeps_collect fun ns _ => keeps_resolveUngluedNS hP hlookup ns
  · exact keeps_pure trivial

/-- The end of a walk meets `post`; a walk that goes on keeps `P`. -/
def EndsWith (P : State Idx → Prop) (post : Entry → State Idx → Prop) (r : Entry ⊕ Walk) (s : State Idx) : Prop :=
  match r with
  | .inl e => post e s
  | .inr _ => P s

theorem triple_considerResponse {w : Walk} {ranked : List AddrPort} {queryName : Name} {resp : Message}
    {used : AddrPort}
    (hfinish : queryName.equal target → Triple P (finish cfg world target t resp) (EndsWith P post) P) :
    Triple P (considerResponse cfg world lookup target t w ranked queryName resp used) (EndsWith P post) P := by
  have hgo : ∀ w', Triple P (pure (.inr w') : Resolver Idx (Entry ⊕ Walk)) (EndsWith P post) P :=
    fun w' => triple_pure fun s hs => hs
  have hfail : ∀ e, Triple P (fail e : Resolver Idx (Entry ⊕ Walk)) (EndsWith P post) P :=
    fun e => triple_fail fun s hs => hs
  refine triple_ite (fun _ => ?_) fun _ => triple_ite (fun _ => ?_) fun _ => ?_
  · exact triple_ite (fun _ => hgo _) fun _ => triple_ite (fun _ => hgo _) fun _ => hfail _
  · exact triple_ite hfinish fun _ => triple_ite (fun _ => hgo _) fun _ => hgo _
  · refine (keeps_serversFromReferral hP hlookup resp).triple_bind fun next _ => ?_
    refine triple_ite (fun _ => hgo _) fun _ => ?_
    exact triple_ite (fun h => hfinish h.1) fun _ => triple_ite (fun _ => hgo _) fun _ => hfail _

variable (hfinish : ∀ n resp, IsResponse world n t resp → n.equal target →
  Triple P (finish cfg world target t resp) (EndsWith P post) P)

include hfinish

theorem triple_walkStep {w : Walk} : Triple P (walkStep cfg world lookup target t w) (EndsWith P post) P := by
  refine triple_ite (fun _ => triple_fail fun s hs => hs) fun _ => ?_
  refine (keeps_observe hP _).triple_bind fun ranked _ => ?_
  refine (keeps_queryAnyLoop hP).triple_bind fun answer hanswer => ?_
  exact triple_considerResponse hP hlookup (hfinish _ _ hanswer)

theorem triple_walk {n : Nat} {w : Walk} : Triple P (walk cfg world lookup target t n w) post P := by
  induction n generalizing w with
  | zero => exact triple_fail fun s hs => hs
  | succ n ih =>
    refine triple_bind (triple_walkStep hP hlookup hfinish) fun next s hs => ?_
    cases next with
    | inl entry => exact hs
    | inr w' => exact ih s hs

theorem triple_resolveDepthInner : Triple P (resolveDepthInner cfg world lookup target t) post P :=
  (keeps_observe hP _).triple_bind fun _ _ => triple_walk hP hlookup hfinish

end Lookup

/-- The rule for a guarded call. -/
theorem triple_singleflight {name : Name} {inner : Resolver Idx Entry} (hP : Stable P)
    (hpost : ∀ e, Stable (post e)) (hfails : ∀ e s, post e s → P s) (hinner : Triple P inner post P) :
    Triple P (singleflight cfg world name t inner) post P := by
  have hexpired : ∀ {Q : State Idx → Prop}, Stable Q →
      Triple Q (observe world.expired : Resolver Idx Bool) (fun _ s => Q s) Q :=
    fun hQ => (keeps_observe hQ _).conseq fun _ _ hs => hs.1
  have hmark : ∀ {Q : State Idx → Prop} (f : State Idx → List (Bytes × RRType)), Stable Q →
      Triple Q (modify fun s => { s with inflight := f s } : Resolver Idx Unit) (fun _ s => Q s) P :=
    fun f hQ => triple_modify fun s hs => hQ.inflight s _ hs
  have hinflight : Triple P (gets State.inflight : Resolver Idx _) (fun _ s => P s) P :=
    triple_gets fun s hs => hs
  refine triple_bind hinflight fun inflight => ?_
  refine triple_ite (fun _ => triple_fail fun s hs => hs) fun _ => ?_
  refine triple_ite (fun _ => triple_fail fun s hs => hs) fun _ => ?_
  refine triple_bind (hmark _ hP) fun _ => triple_bind (triple_attempt hinner) fun outcome => ?_
  cases outcome with
  | error e =>
    refine triple_bind (hmark _ hP) fun _ => triple_bind (hexpired hP) fun expired => ?_
    cases expired <;> exact triple_fail fun s hs => hs
  | ok entry =>
    refine triple_bind (hmark _ (hpost entry)) fun _ => ?_
    refine triple_bind ((hexpired (hpost entry)).mono (fun _ hs => hs) (fun _ _ hs => hs) (hfails entry))
      fun expired => ?_
    cases expired
    · exact triple_pure fun s hs => hs
    · exact triple_fail fun s hs => hfails entry s hs

/-- What the cache must let through for `resolveMiss` to keep `P` and return a `good` entry. -/
structure MissRules (cfg : Config Idx) (world : World) (P : State Idx → Prop) (good : Entry → Prop) (name : Name)
    (t : RRType) : Prop where
  stable : Stable P
  put : ∀ e, good e → Keeps P (cachePut cfg world name t e) fun _ => True
  denial : cfg.aggressiveNSEC → ∀ s now e, P s → (cfg.denials.synthesiseFromNSEC s.denials name t now = some e ∨
    cfg.denials.synthesiseFromNSEC3 s.denials name t now = some e) → good e
  response : ∀ resp now, IsResponse world name t resp → good (entryFromResponse cfg name resp now)

variable {good : Entry → Prop}

section

variable (h : MissRules cfg world P good name t)

include h

theorem MissRules.keeps_synthesise : Keeps P (synthesise cfg world name t) fun r => ∀ e, r = some e → good e := by
  refine keeps_ite (fun hon => ?_) fun _ => keeps_pure nofun
  refine keeps_bind (keeps_observe h.stable _) fun now _ s hs => ⟨hs, fun e he => ?_⟩
  rw [Option.or_eq_some_iff] at he
  exact h.denial hon s now e hs (he.imp_right And.right)

theorem MissRules.triple_finish {n : Name} {resp : Message} (hresp : IsResponse world n t resp) (hn : n.equal name) :
    Triple P (finish cfg world name t resp) (EndsWith P fun e s => P s ∧ good e) P := by
  rw [Name.equal_iff.mp hn] at hresp
  refine (keeps_observe h.stable _).triple_bind fun now _ => ?_
  have hgood := h.response resp now hresp
  exact (h.put _ hgood).triple_bind fun _ _ => triple_pure fun s hs => ⟨hs, hgood⟩

theorem MissRules.keeps_resolveMiss (hlookup : ∀ n t, Keeps P (lookup n t) fun _ => True) :
    Keeps P (resolveMiss cfg world lookup name t) good := by
  refine keeps_bind h.keeps_synthesise fun denial hdenial => ?_
  cases denial with
  | some e => exact keeps_bind (h.put e (hdenial e rfl)) fun _ _ => keeps_pure (hdenial e rfl)
  | none =>
    have hpost : ∀ e, Stable fun s => P s ∧ good e := fun e =>
      ⟨fun s hs => ⟨h.stable.tick s hs.1, hs.2⟩, fun s x hs => ⟨h.stable.inflight s x hs.1, hs.2⟩,
        fun s x hs => ⟨h.stable.nsInProgress s x hs.1, hs.2⟩⟩
    refine triple_singleflight h.stable hpost (fun e s hs => hs.1) ?_
    exact triple_resolveDepthInner h.stable hlookup fun n resp => h.triple_finish

end

theorem keeps_harvest (hP : Stable P) (hdenials : ∀ s idx, P s → P { s with denials := idx }) (entry : Entry) :
    Keeps P (harvest cfg world entry) fun _ => True := by
  refine keeps_ite (fun _ => ?_) fun _ => keeps_pure trivial
  exact keeps_bind (keeps_observe hP _) fun now _ => keeps_modify fun s hs => hdenials s _ hs

theorem keeps_validate (entry : Entry) : Keeps P (validate cfg name t entry) fun _ => True := by
  unfold validate
  split
  · exact keeps_pure trivial
  · split
    any_goals exact keeps_fail
    all_goals exact keeps_pure trivial

theorem keeps_resolveDepthFollowLoop {n : Nat} {cur : Name} {seen : List Name} {aggregated : Entry}
    (hdepth : ∀ cur, Keeps P (resolveDepth cfg world cfg.maxDepth cur t) fun _ => True) :
    Keeps P (resolveDepthFollowLoop cfg world t n cur seen aggregated) fun _ => True := by
  induction n generalizing cur seen aggregated with
  | zero => exact keeps_fail
  | succ n ih =>
    refine keeps_ite (fun _ => keeps_fail) fun _ => keeps_bind (hdepth cur) fun entry _ => ?_
    refine keeps_ite (fun _ => keeps_pure trivial) fun _ => ?_
    split
    · exact keeps_pure trivial
    · exact keeps_ite (fun _ => keeps_pure trivial) fun _ => ih

theorem keeps_resolveEntry (hP : Stable P) (hdenials : ∀ s idx, P s → P { s with denials := idx })
    (hget : Keeps P (cacheGet world name t) fun _ => True)
    (hdepth : ∀ cur, Keeps P (resolveDepth cfg world cfg.maxDepth cur t) fun _ => True) :
    Keeps P (resolveEntry cfg world name t) fun _ => True := by
  refine keeps_bind hget fun cached _ => ?_
  cases cached with
  | some e => exact keeps_pure trivial
  | none =>
    refine keeps_bind (keeps_resolveDepthFollowLoop hdepth) fun entry _ => ?_
    refine keeps_bind (keeps_validate entry) fun entry' _ => ?_
    exact keeps_bind (keeps_harvest hP hdenials entry') fun _ _ => keeps_pure trivial

end Rules

end Acidns.Recursive.Resolver
