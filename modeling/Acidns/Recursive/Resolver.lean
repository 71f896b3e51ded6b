import Acidns.Recursive.Response

/-!
# The iterative resolver

`recursive/recursive.go`: `ResolveEntry` and everything below it, as programs over the resolver's
state. What the resolver cannot foresee (the clock, the servers' responses, which server the
statistics favour, whether a context has expired) is a function of the number of observations made so
far, so a `World` is one way in which everything outside may behave. A lookup of A and AAAA addresses
for a name server runs one after the other here, and a lookup that waits for itself gives up with its
context.
-/

namespace Acidns.Recursive

/-- The verdicts of a validator. -/
inductive ValidationStatus where
  | secure
  | insecure
  | bogus
  | indeterminate
  deriving DecidableEq

/-- Why one exchange with a server failed. -/
inductive QueryError where
  | exchange (text : String)
  | rateLimited
  | noServers
  | randomID (text : String)
  | context
  deriving DecidableEq

/-- Why a resolution failed. -/
inductive ResolveError where
  | depthLimit (name : Name)
  | cnameLoop
  | iterationLimit
  | allServersLame (servers : List (AddrPort × RCODE))
  | inflightFull
  | noServers (target : Name)
  | emptyReferral (target : Name)
  | queryFailed (cause : QueryError)
  | context
  | validator (text : String)
  | bogusAnswer
  deriving DecidableEq

/-- What the resolver asks of its two indexes of validated NSEC and NSEC3 records: a denial for a name and type, and to
add the records of a negative answer. Those of the source are `Aggressive.index`. -/
structure DenialIndex (Idx : Type) where
  synthesiseFromNSEC : Idx → Name → RRType → Int → Option Entry
  synthesiseFromNSEC3 : Idx → Name → RRType → Int → Option Entry
  harvest : Idx → List Record → Int → Idx

/-- The options of a resolver, with its validator and index. -/
structure Config (Idx : Type) where
  maxIterations : Nat
  maxDepth : Nat
  maxCNAMEs : Nat
  /-- The bound on lookups in flight; zero for none. -/
  maxInflight : Nat
  maxNegTTL : Duration
  maxPosTTL : Duration
  qnameMin : Bool
  aggressiveNSEC : Bool
  denials : DenialIndex Idx
  /-- The verdict for a name, given by its wire form (the zero name's is that of the root), and a type. -/
  validator : Option (Bytes → RRType → Except String ValidationStatus)
  cache : MemoryCacheConfig
  /-- `New` refuses aggressive use without a validator. -/
  aggressive_validated : aggressiveNSEC = true → validator.isSome = true

/-- The settings of `New` with at most a validator among its options. -/
def Config.new {Idx : Type} (denials : DenialIndex Idx)
    (validator : Option (Bytes → RRType → Except String ValidationStatus)) (shardFor : CacheKey → Fin 64) :
    Config Idx where
  maxIterations := 30
  maxDepth := 8
  maxCNAMEs := 8
  maxInflight := 1024
  maxNegTTL := 3600 * second
  maxPosTTL := 86400 * second
  qnameMin := true
  aggressiveNSEC := false
  denials := denials
  validator := validator
  cache := newMemoryCacheConfig defaultMemoryCacheSize defaultMaxRecordsPerEntry shardFor
  aggressive_validated := nofun

def oneShard : CacheKey → Fin 64 := fun _ => 0

/-- What the resolver meets: the clock, the roots and the servers, by tick. -/
structure World where
  clock : Nat → Int
  roots : Nat → List AddrPort
  rank : Nat → List AddrPort → List AddrPort
  take : Nat → AddrPort → Bool
  randomID : Nat → Except String UInt16
  exchange : Nat → AddrPort → Message → Except String Message
  expired : Nat → Bool

/-- What calls share: the cache, the index and the two lists of keys in progress. -/
structure State (Idx : Type) where
  cache : MemoryCache
  denials : Idx
  inflight : List (Bytes × RRType)
  nsInProgress : List Bytes
  tick : Nat

/-- A program over the resolver's state. -/
abbrev Resolver (Idx : Type) := Program (State Idx) ResolveError

namespace Resolver

open Program

variable {Idx : Type}

/-- Each look at the world takes one tick. -/
def observe {α : Type} (f : Nat → α) : Resolver Idx α := fun s => (.ok (f s.tick), { s with tick := s.tick + 1 })

variable (cfg : Config Idx) (world : World)

def cacheGet (name : Name) (t : RRType) : Resolver Idx (Option Entry) := do
  let now ← observe world.clock
  let found ← gets fun s => s.cache.get (key name RRClass.classIN t) now
  modify fun s => { s with cache := found.2 }
  pure found.1

def cachePut (name : Name) (t : RRType) (e : Entry) : Resolver Idx Unit := do
  let now ← observe world.clock
  modify fun s => { s with cache := s.cache.put cfg.cache (key name RRClass.classIN t) e now }

/-! ### Queries -/

def query (id : UInt16) (name : Name) (t : RRType) : Message :=
  ⟨id, 0, [newQuestion name t], [], [], [], some ⟨1232, 0, 0, false, []⟩⟩

def queryAnyLoop (name : Name) (t : RRType) :
    List AddrPort → Option String → Bool → Resolver Idx (Message × AddrPort)
  | [], some lastErr, _ => fail (.queryFailed (.exchange lastErr))
  | [], none, skippedRateLimit => fail (.queryFailed (if skippedRateLimit then .rateLimited else .noServers))
  | s :: servers, lastErr, skippedRateLimit => do
    let allowed ← observe fun i => world.take i s
    if !allowed then queryAnyLoop name t servers lastErr true
    else do
      let id ← observe world.randomID
      match id with
      | .error e => fail (.queryFailed (.randomID e))
      | .ok id => do
        let resp ← observe fun i => world.exchange i s (query id name t)
        match resp with
        | .ok resp => pure (resp, s)
        | .error e => do
          let expired ← observe world.expired
          if expired then fail (.queryFailed .context)
          else queryAnyLoop name t servers (some e) skippedRateLimit

/-- The servers are asked in their order until one answers. -/
def queryAny (servers : List AddrPort) (name : Name) (t : RRType) : Resolver Idx (Message × AddrPort) :=
  queryAnyLoop world name t servers none false

/-! ### One iterative walk

`lookup` is the resolution of a name server's address one level deeper. -/

section Walk

variable (lookup : Name → RRType → Resolver Idx Entry)

def addressesIn (found : Except ResolveError Entry) (t : RRType) : List AddrPort :=
  match found with
  | .ok e => (e.answer.filter fun r => r.type = t).filterMap addressOf
  | .error _ => []

/-- A name server whose lookup is in progress is left out. -/
def resolveUngluedNS (ns : Name) : Resolver Idx (List AddrPort) := do
  let busy ← gets fun s => decide (nameKey ns ∈ s.nsInProgress)
  if busy then pure []
  else do
    modify fun s => { s with nsInProgress := nameKey ns :: s.nsInProgress }
    let a4 ← attempt (lookup ns .a)
    let a6 ← attempt (lookup ns .aaaa)
    modify fun s => { s with nsInProgress := s.nsInProgress.erase (nameKey ns) }
    pure (addressesIn a4 .a ++ addressesIn a6 .aaaa)

/-- Name servers are looked up only when the referral has no glue. -/
def serversFromReferral (resp : Message) : Resolver Idx (List AddrPort) :=
  match splitReferral resp with
  | ([], unglued) => collect (resolveUngluedNS lookup) unglued
  | (glued, _) => pure glued

/-- The state of a walk down the tree. -/
structure Walk where
  servers : List AddrPort
  closestZone : Name
  fellBack : Bool
  lameServers : List (AddrPort × RCODE)

/-- The entry that a response gives, after the bailiwick filter. -/
def entryFromResponse (qname : Name) (resp : Message) (now : Int) : Entry :=
  let kept := bailiwickFilter qname resp
  { answer := kept.1
    authority := kept.2.1
    additional := kept.2.2
    rcode := resp.flags.rcode
    aa := resp.flags.authoritative
    ad := cfg.validator.isSome && resp.flags.authenticData
    expiresAt := now + responseTTL cfg.maxNegTTL cfg.maxPosTTL resp }

def finish (target : Name) (t : RRType) (resp : Message) : Resolver Idx (Entry ⊕ Walk) := do
  let now ← observe world.clock
  let entry := entryFromResponse cfg target resp now
  cachePut cfg world target t entry
  pure (.inl entry)

/-- What follows from a response of the server `used`, one of `ranked`, to a query for `queryName`. -/
def considerResponse (target : Name) (t : RRType) (w : Walk) (ranked : List AddrPort) (queryName : Name)
    (resp : Message) (used : AddrPort) : Resolver Idx (Entry ⊕ Walk) :=
  let rcode := resp.flags.rcode
  if rcode = .refused ∨ rcode = .servFail then
    let lame := w.lameServers ++ [(used, rcode)]
    let servers := removeServer ranked used
    if servers ≠ [] then pure (.inr { w with servers := servers, lameServers := lame })
    else if !w.fellBack then pure (.inr { w with servers := ranked, fellBack := true, lameServers := lame })
    else fail (.allServersLame lame)
  else if resp.flags.authoritative then
    if queryName.equal target then finish cfg world target t resp
    else if rcode = .noError ∧ resp.answers.length = 0 then pure (.inr { w with closestZone := queryName })
    else pure (.inr { w with fellBack := true })
  else do
    let next ← serversFromReferral lookup resp
    let zone := referralZone resp
    if next ≠ [] then
      pure (.inr { w with servers := next, closestZone := if zone.isValid then zone else w.closestZone })
    else if queryName.equal target ∧ hasAnswerFor resp target t then finish cfg world target t resp
    else if !w.fellBack then pure (.inr { w with fellBack := true })
    else fail (.emptyReferral target)

/-- One round: query, then finish or follow the referral. -/
def walkStep (target : Name) (t : RRType) (w : Walk) : Resolver Idx (Entry ⊕ Walk) :=
  if w.servers = [] then fail (.noServers target)
  else do
    let queryName := if w.fellBack then target else minimisedQName w.closestZone target
    let ranked ← observe fun i => world.rank i w.servers
    let answer ← queryAny world ranked queryName t
    considerResponse cfg world lookup target t w ranked queryName answer.1 answer.2

/-- At most `maxIterations` rounds. -/
def walk (target : Name) (t : RRType) : Nat → Walk → Resolver Idx Entry
  | 0, _ => fail .iterationLimit
  | n + 1, w => do
    let next ← walkStep cfg world lookup target t w
    match next with
    | .inl entry => pure entry
    | .inr w => walk target t n w

def resolveDepthInner (target : Name) (t : RRType) : Resolver Idx Entry := do
  let servers ← observe world.roots
  walk cfg world lookup target t cfg.maxIterations ⟨servers, .root, !cfg.qnameMin, []⟩

end Walk

/-! ### Resolution -/

def synthesise (name : Name) (t : RRType) : Resolver Idx (Option Entry) :=
  if cfg.aggressiveNSEC then do
    let now ← observe world.clock
    let idx ← gets State.denials
    pure ((cfg.denials.synthesiseFromNSEC idx name t now).or (cfg.denials.synthesiseFromNSEC3 idx name t now))
  else pure none

/-- One lookup in flight per name and type, which runs to its end even if the caller's context expires. -/
def singleflight (name : Name) (t : RRType) (inner : Resolver Idx Entry) : Resolver Idx Entry := do
  let inflight ← gets State.inflight
  if (nameKey name, t) ∈ inflight then fail .context
  else if cfg.maxInflight > 0 ∧ cfg.maxInflight ≤ inflight.length then fail .inflightFull
  else do
    modify fun s => { s with inflight := (nameKey name, t) :: s.inflight }
    let outcome ← attempt inner
    modify fun s => { s with inflight := s.inflight.erase (nameKey name, t) }
    let expired ← observe world.expired
    match expired, outcome with
    | true, _ => fail .context
    | false, .error e => fail e
    | false, .ok entry => pure entry

/-- After a cache miss: a denial from the index, or a walk. -/
def resolveMiss (lookup : Name → RRType → Resolver Idx Entry) (name : Name) (t : RRType) : Resolver Idx Entry := do
  let denial ← synthesise cfg world name t
  match denial with
  | some e => do
    cachePut cfg world name t e
    pure e
  | none => singleflight cfg world name t (resolveDepthInner cfg world lookup name t)

/-- `resolveDepth`, by the number of levels left. -/
def resolveDepth : Nat → Name → RRType → Resolver Idx Entry
  | 0, name, _ => fail (.depthLimit name)
  | levels + 1, name, t => do
    let cached ← cacheGet world name t
    match cached with
    | some e => pure e
    | none => resolveMiss cfg world (resolveDepth levels) name t

/-- Later legs add answers and can only shorten the lifetime. -/
def aggregate (aggregated entry : Entry) (legAnswers : List Record) : Entry :=
  if aggregated.answer.length = 0 ∧ aggregated.authority.length = 0 then { entry with answer := legAnswers }
  else
    { aggregated with
      answer := aggregated.answer ++ legAnswers
      rcode := if entry.rcode ≠ .noError then entry.rcode else aggregated.rcode
      expiresAt := if entry.expiresAt < aggregated.expiresAt then entry.expiresAt else aggregated.expiresAt }

def emptyEntry : Entry := ⟨[], [], [], 0, false, false, 0⟩

/-- The loop of `resolveDepthFollow`, by the number of CNAMEs that may still be followed. -/
def resolveDepthFollowLoop (t : RRType) : Nat → Name → List Name → Entry → Resolver Idx Entry
  | 0, _, _, _ => fail .cnameLoop
  | n + 1, cur, cnameSeen, aggregated =>
    if cur ∈ cnameSeen then fail .cnameLoop
    else do
      let entry ← resolveDepth cfg world cfg.maxDepth cur t
      let aggregated := aggregate aggregated entry (recordsAt entry.answer cur)
      if t = .cname then pure aggregated
      else
        match pickCNAMETarget entry.answer cur with
        | none => pure aggregated
        | some target =>
          if hasTypeAt entry.answer cur t then pure aggregated
          else resolveDepthFollowLoop t n target (cur :: cnameSeen) aggregated

/-- A name with its CNAMEs followed. -/
def resolveDepthFollow (name : Name) (t : RRType) : Resolver Idx Entry :=
  resolveDepthFollowLoop cfg world t cfg.maxCNAMEs name [] emptyEntry

/-- Only a secure verdict sets AD; a bogus one is an error. -/
def validate (name : Name) (t : RRType) (entry : Entry) : Resolver Idx Entry :=
  match cfg.validator with
  | none => pure entry
  | some verdict =>
    match verdict (nameKey name) t with
    | .error e => fail (.validator e)
    | .ok .bogus => fail .bogusAnswer
    | .ok .secure => pure { entry with ad := true }
    | .ok .insecure => pure entry
    | .ok .indeterminate => pure entry

def harvest (entry : Entry) : Resolver Idx Unit :=
  if cfg.aggressiveNSEC ∧ entry.ad ∧ entry.answer.length = 0 ∧
      (entry.rcode = .nxDomain ∨ entry.rcode = .noError) then do
    let now ← observe world.clock
    modify fun s => { s with denials := cfg.denials.harvest s.denials entry.authority now }
  else pure ()

def resolveFresh (name : Name) (t : RRType) : Resolver Idx Entry := do
  let entry ← resolveDepthFollow cfg world name t
  let entry ← validate cfg name t entry
  harvest cfg world entry
  pure entry

/-- The exported call: the cache as it is, or a fresh answer. -/
def resolveEntry (name : Name) (t : RRType) : Resolver Idx Entry := do
  let cached ← cacheGet world name t
  match cached with
  | some e => pure e
  | none => resolveFresh cfg world name t

/-- The states that calls lead to. -/
inductive Runs (start : State Idx) : State Idx → Prop
  | refl : Runs start start
  | call {s : State Idx} (name : Name) (t : RRType) :
    Runs start s → Runs start (resolveEntry cfg world name t s).2

end Resolver

def State.initial {Idx : Type} (denials : Idx) : State Idx := ⟨.empty, denials, [], [], 0⟩

end Acidns.Recursive
