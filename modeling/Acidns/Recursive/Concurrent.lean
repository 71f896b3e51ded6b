import Acidns.Recursive.Resolver

/-!
# The resolver at work

`ResolveEntry` of `recursive/recursive.go` as its goroutines interleave. A lookup that misses the cache joins
the call in flight under its key, or starts one; a goroutine of its own drives the walk of a call. A walk that
is referred to name servers without addresses looks them up one after the other, the A and the AAAA addresses
of each in goroutines of their own, and goes on when both are there.

A step is what a goroutine does up to its next look at something shared (the cache, the indexes, the name
servers in progress, the calls in flight) or its next wait.
-/

namespace Acidns.Recursive

/-- The stages of one lookup: cache, denials, then a call in flight. -/
inductive Lookup where
  | start
  | missed
  | unproven
  | waiting (call : Nat)
  | done (outcome : Except ResolveError Entry)

/-- The two address families of a name server. -/
inductive Family where
  | v4
  | v6
  deriving DecidableEq

def Family.type : Family → RRType
  | .v4 => .a
  | .v6 => .aaaa

/-- A referral whose name servers are being looked up. -/
structure Referral where
  left : Nat
  walk : Resolver.Walk
  queryName : Name
  resp : Message

inductive Phase where
  | started
  | walking (left : Nat) (w : Resolver.Walk)
  /-- In `serversFromReferral`, with the name servers to come and the addresses found. -/
  | referred (r : Referral) (todo : List Name) (found : List AddrPort)
  /-- In `resolveUngluedNS`. -/
  | chasing (r : Referral) (todo : List Name) (found : List AddrPort) (ns : Name) (lookups : Family → Lookup)
  | returned (outcome : Except ResolveError Entry)
  | deleted (outcome : Except ResolveError Entry)
  | released (outcome : Except ResolveError Entry)
  | closed (outcome : Except ResolveError Entry)

/-- One entry of the singleflight table, with the goroutine that works on it. -/
structure Call where
  target : Name
  t : RRType
  levels : Nat
  phase : Phase

def Call.key (c : Call) : Bytes × RRType := (nameKey c.target, c.t)

inductive ClientPhase where
  | start
  /-- In `resolveDepthFollow`, with the number of CNAMEs that may still be followed. -/
  | following (left : Nat) (cur : Name) (cnameSeen : List Name) (aggregated : Entry) (lookup : Lookup)
  | done (outcome : Except ResolveError Entry)

/-- One caller of `ResolveEntry`. -/
structure Client where
  name : Name
  t : RRType
  phase : ClientPhase

structure System (Idx : Type) where
  /-- Its list of keys in flight has one key for each slot of the semaphore that is taken. -/
  shared : State Idx
  inflight : Table (Bytes × RRType) Nat
  /-- Every call so far; lookups refer to them by position. -/
  calls : List Call
  clients : List Client

/-- What can happen next. -/
inductive Action where
  /-- Somebody calls `ResolveEntry`. -/
  | resolve (name : Name) (t : RRType)
  | client (i : Nat)
  | cancel (i : Nat)
  | call (k : Nat)
  | lookup (k : Nat) (family : Family)
  /-- The context of a call is done while one of its lookups waits. -/
  | expire (k : Nat) (family : Family)

/-! ### The parts of a walk

An iteration in three parts: the query, what follows from a response that is no referral, and what follows
from the addresses that a referral leads to. -/

namespace Resolver

open Program

variable {Idx : Type} (cfg : Config Idx) (world : World)

/-- What a round of the walk heard, and from whom. -/
structure Reply where
  queryName : Name
  ranked : List AddrPort
  resp : Message
  used : AddrPort

def walkQuery (target : Name) (t : RRType) (w : Walk) : Resolver Idx Reply :=
  if w.servers = [] then fail (.noServers target)
  else do
    let queryName := if w.fellBack then target else minimisedQName w.closestZone target
    let ranked ← observe fun i => world.rank i w.servers
    let answer ← queryAny world ranked queryName t
    pure ⟨queryName, ranked, answer.1, answer.2⟩

/-- The server declines to answer for the zone. -/
def isLame (resp : Message) : Prop := resp.flags.rcode = .refused ∨ resp.flags.rcode = .servFail

instance (resp : Message) : Decidable (isLame resp) := inferInstanceAs (Decidable (_ ∨ _))

/-- The walk goes on from the response. -/
def isReferral (resp : Message) : Prop := ¬isLame resp ∧ resp.flags.authoritative = false

instance (resp : Message) : Decidable (isReferral resp) := inferInstanceAs (Decidable (_ ∧ _))

def afterResponse (target : Name) (t : RRType) (w : Walk) (reply : Reply) : Resolver Idx (Entry ⊕ Walk) :=
  if isLame reply.resp then
    let lame := w.lameServers ++ [(reply.used, reply.resp.flags.rcode)]
    let servers := removeServer reply.ranked reply.used
    if servers ≠ [] then pure (.inr { w with servers := servers, lameServers := lame })
    else if !w.fellBack then pure (.inr { w with servers := reply.ranked, fellBack := true, lameServers := lame })
    else fail (.allServersLame lame)
  else if reply.queryName.equal target then finish cfg world target t reply.resp
  else if reply.resp.flags.rcode = .noError ∧ reply.resp.answers.length = 0 then
    pure (.inr { w with closestZone := reply.queryName })
  else pure (.inr { w with fellBack := true })

def afterReferral (target : Name) (t : RRType) (w : Walk) (queryName : Name) (resp : Message) (next : List AddrPort) :
    Resolver Idx (Entry ⊕ Walk) :=
  let zone := referralZone resp
  if next ≠ [] then
    pure (.inr { w with servers := next, closestZone := if zone.isValid then zone else w.closestZone })
  else if queryName.equal target ∧ hasAnswerFor resp target t then finish cfg world target t resp
  else if !w.fellBack then pure (.inr { w with fellBack := true })
  else fail (.emptyReferral target)

section Parts

variable (lookup : Name → RRType → Resolver Idx Entry) (target : Name) (t : RRType) (w : Walk)

theorem considerResponse_eq (reply : Reply) :
    considerResponse cfg world lookup target t w reply.ranked reply.queryName reply.resp reply.used =
      if isReferral reply.resp then serversFromReferral lookup reply.resp >>= fun next =>
        afterReferral cfg world target t w reply.queryName reply.resp next
      else afterResponse cfg world target t w reply := by
  grind [considerResponse, afterResponse, isLame, isReferral, afterReferral]

theorem walkStep_eq : walkStep cfg world lookup target t w = (do
    let reply ← walkQuery world target t w
    if isReferral reply.resp then do
      let next ← serversFromReferral lookup reply.resp
      afterReferral cfg world target t w reply.queryName reply.resp next
    else afterResponse cfg world target t w reply) := by
  by_cases hservers : w.servers = []
  · rw [walkStep, if_pos hservers, walkQuery, if_pos hservers, fail_bind]
  · simp only [walkStep, walkQuery, if_neg hservers, bind_assoc, pure_bind, ← considerResponse_eq]

end Parts

/-! ### What goroutines do between waits -/

/-- A synthesised denial is cached like an answer. -/
def deny (name : Name) (t : RRType) : Resolver Idx (Option Entry) := do
  let denial ← synthesise cfg world name t
  match denial with
  | some e => do
    cachePut cfg world name t e
    pure (some e)
  | none => pure none

/-- The end of an iteration, behind which `left` are left. -/
def conclude (left : Nat) (p : Resolver Idx (Entry ⊕ Walk)) : Resolver Idx Phase := do
  let next ← p
  match next with
  | .inl entry => pure (.returned (.ok entry))
  | .inr w => pure (.walking left w)

def iterate (target : Name) (t : RRType) (left : Nat) (w : Walk) : Resolver Idx Phase := do
  let reply ← walkQuery world target t w
  if isReferral reply.resp then
    match splitReferral reply.resp with
    | ([], unglued) => pure (.referred ⟨left, w, reply.queryName, reply.resp⟩ unglued [])
    | (glued, _) => conclude left (afterReferral cfg world target t w reply.queryName reply.resp glued)
  else conclude left (afterResponse cfg world target t w reply)

/-- `markNSInProgress`: a name server that is in progress already is passed over. -/
def mark (r : Referral) (ns : Name) (todo : List Name) (found : List AddrPort) : Resolver Idx Phase := do
  let busy ← gets fun s => decide (nameKey ns ∈ s.nsInProgress)
  if busy then pure (.referred r todo found)
  else do
    modify fun s => { s with nsInProgress := nameKey ns :: s.nsInProgress }
    pure (.chasing r todo found ns fun _ => .start)

/-- The name server may be looked up again. -/
def unmark (r : Referral) (ns : Name) (todo : List Name) (found : List AddrPort) : Resolver Idx Phase := do
  modify fun s => { s with nsInProgress := s.nsInProgress.erase (nameKey ns) }
  pure (.referred r todo found)

/-- The validator has its say on a finished answer. -/
def settle (name : Name) (t : RRType) (entry : Entry) : Resolver Idx Entry := do
  let entry ← validate cfg name t entry
  harvest cfg world entry
  pure entry

end Resolver

namespace Call

open Program Resolver

variable {Idx : Type} (cfg : Config Idx) (world : World)

/-- What the goroutine of the call does up to its next wait. -/
def work (c : Call) : Option (Resolver Idx Phase) :=
  match c.phase with
  | .started => some do
    let servers ← observe world.roots
    pure (.walking cfg.maxIterations ⟨servers, .root, !cfg.qnameMin, []⟩)
  | .walking 0 _ => some (fail .iterationLimit)
  | .walking (left + 1) w => some (iterate cfg world c.target c.t left w)
  | .referred r [] found =>
    some (conclude r.left (afterReferral cfg world c.target c.t r.walk r.queryName r.resp found))
  | .referred r (ns :: todo) found => some (mark r ns todo found)
  | .chasing r todo found ns lookups =>
    match lookups .v4, lookups .v6 with
    | .done a4, .done a6 => some (unmark r ns todo (found ++ (addressesIn a4 .a ++ addressesIn a6 .aaaa)))
    | _, _ => none
  | _ => none

end Call

def Phase.after : Except ResolveError Phase → Phase
  | .ok phase => phase
  | .error e => .returned (.error e)

def Lookup.after (next : Lookup) : Except ResolveError (Option Entry) → Lookup
  | .ok (some e) => .done (.ok e)
  | .ok none => next
  | .error e => .done (.error e)

namespace System

open Program Resolver

variable {Idx : Type} (cfg : Config Idx) (world : World)

def initial (denials : Idx) : System Idx := ⟨.initial denials, ∅, [], []⟩

/-- A program of the resolver run on the shared state. -/
def exec {α : Type} (s : System Idx) (p : Resolver Idx α) : Except ResolveError α × System Idx :=
  ((p s.shared).1, { s with shared := (p s.shared).2 })

/-- The result of a call that is closed. -/
def outcome (s : System Idx) (k : Nat) : Option (Except ResolveError Entry) :=
  match s.calls[k]? with
  | some ⟨_, _, _, .closed outcome⟩ => some outcome
  | _ => none

def setPhase (s : System Idx) (k : Nat) (phase : Phase) : System Idx :=
  { s with calls := s.calls.modify k fun c => { c with phase } }

/-! ### Lookups -/

/-- Wait for the call in flight, or start one. -/
def join (s : System Idx) (levels : Nat) (name : Name) (t : RRType) : Lookup × System Idx :=
  let key := (nameKey name, t)
  match s.inflight.lookup key with
  | some k => (.waiting k, s)
  | none =>
    if 0 < cfg.maxInflight ∧ cfg.maxInflight ≤ s.shared.inflight.length then (.done (.error .inflightFull), s)
    else
      (.waiting s.calls.length,
        { s with
          shared := { s.shared with inflight := key :: s.shared.inflight }
          inflight := s.inflight.insert key s.calls.length
          calls := s.calls ++ [⟨name, t, levels - 1, .started⟩] })

/-- A step of `resolveDepth` with the number of levels left. -/
def moveLookup (s : System Idx) (levels : Nat) (name : Name) (t : RRType) : Lookup → Option (Lookup × System Idx)
  | .start =>
    if levels = 0 then some (.done (.error (.depthLimit name)), s)
    else
      let found := s.exec (cacheGet world name t)
      some (Lookup.after .missed found.1, found.2)
  | .missed =>
    let denial := s.exec (deny cfg world name t)
    some (Lookup.after .unproven denial.1, denial.2)
  | .unproven => some (s.join cfg levels name t)
  | .waiting k => (s.outcome k).map fun outcome => (.done outcome, s)
  | .done _ => none

/-! ### Calls -/

/-- The goroutine of a call does what comes next; behind its walk that is what `startResolveDepth` defers. -/
def moveCall (s : System Idx) (k : Nat) : Option (System Idx) := do
  let c ← s.calls[k]?
  match c.phase with
  | .returned outcome => some ({ s with inflight := s.inflight.erase c.key }.setPhase k (.deleted outcome))
  | .deleted outcome =>
    let shared := { s.shared with inflight := s.shared.inflight.erase c.key }
    some ({ s with shared }.setPhase k (.released outcome))
  | .released outcome => some (s.setPhase k (.closed outcome))
  | _ =>
    let p ← c.work cfg world
    let next := s.exec p
    some (next.2.setPhase k (Phase.after next.1))

/-- One step of a name server's lookup. -/
def moveChase (s : System Idx) (k : Nat) (family : Family) : Option (System Idx) := do
  let c ← s.calls[k]?
  match c.phase with
  | .chasing r todo found ns lookups =>
    let next ← s.moveLookup cfg world c.levels ns family.type (lookups family)
    some (next.2.setPhase k (.chasing r todo found ns (Function.update lookups family next.1)))
  | _ => none

/-- A lookup gives up waiting. -/
def expire (s : System Idx) (k : Nat) (family : Family) : Option (System Idx) := do
  let c ← s.calls[k]?
  match c.phase with
  | .chasing r todo found ns lookups =>
    match lookups family with
    | .waiting _ => some (s.setPhase k
        (.chasing r todo found ns (Function.update lookups family (.done (.error .context)))))
    | _ => none
  | _ => none

/-! ### Clients -/

/-- The beginning of a leg of `resolveDepthFollow`. -/
def follow (cur : Name) (cnameSeen : List Name) (aggregated : Entry) : (left : Nat) → ClientPhase
  | 0 => .done (.error .cnameLoop)
  | left + 1 =>
    if cur ∈ cnameSeen then .done (.error .cnameLoop) else .following left cur cnameSeen aggregated .start

/-- The answer is complete, or its CNAME is followed. -/
def nextLeg (t : RRType) (left : Nat) (cur : Name) (cnameSeen : List Name) (aggregated entry : Entry) :
    Entry ⊕ ClientPhase :=
  let aggregated := aggregate aggregated entry (recordsAt entry.answer cur)
  if t = .cname then .inl aggregated
  else
    match pickCNAMETarget entry.answer cur with
    | none => .inl aggregated
    | some target =>
      if hasTypeAt entry.answer cur t then .inl aggregated
      else .inr (follow target (cur :: cnameSeen) aggregated left)

def setClient (s : System Idx) (i : Nat) (phase : ClientPhase) : System Idx :=
  { s with clients := s.clients.modify i fun c => { c with phase } }

/-- One step of a caller. -/
def moveClient (s : System Idx) (i : Nat) : Option (System Idx) := do
  let c ← s.clients[i]?
  match c.phase with
  | .start =>
    let found := s.exec (cacheGet world c.name c.t)
    some (found.2.setClient i
      (match found.1 with
      | .ok (some e) => .done (.ok e)
      | .ok none => follow c.name [] emptyEntry cfg.maxCNAMEs
      | .error e => .done (.error e)))
  | .following left cur cnameSeen aggregated lookup =>
    match lookup with
    | .done (.error e) => some (s.setClient i (.done (.error e)))
    | .done (.ok entry) =>
      match nextLeg c.t left cur cnameSeen aggregated entry with
      | .inl aggregated =>
        let settled := s.exec (settle cfg world c.name c.t aggregated)
        some (settled.2.setClient i (.done settled.1))
      | .inr phase => some (s.setClient i phase)
    | lookup =>
      let next ← s.moveLookup cfg world cfg.maxDepth cur c.t lookup
      some (next.2.setClient i (.following left cur cnameSeen aggregated next.1))
  | .done _ => none

/-- A waiting caller's context ends; the call goes on without it. -/
def cancel (s : System Idx) (i : Nat) : Option (System Idx) := do
  let c ← s.clients[i]?
  match c.phase with
  | .following _ _ _ _ (.waiting _) => some (s.setClient i (.done (.error .context)))
  | _ => none

/-- The effect of an action; none when it cannot happen. -/
def step (s : System Idx) : Action → Option (System Idx)
  | .resolve name t => some { s with clients := s.clients ++ [⟨name, t, .start⟩] }
  | .client i => s.moveClient cfg world i
  | .cancel i => s.cancel i
  | .call k => s.moveCall cfg world k
  | .lookup k family => s.moveChase cfg world k family
  | .expire k family => s.expire k family

end System

/-- The states reached by allowed actions. -/
inductive Run {Idx : Type} (cfg : Config Idx) (world : World) (allowed : System Idx → Action → Prop) : System Idx → Prop
  | initial (denials : Idx) : Run cfg world allowed (.initial denials)
  | step {s s' : System Idx} (a : Action) :
    Run cfg world allowed s → allowed s a → s.step cfg world a = some s' → Run cfg world allowed s'

end Acidns.Recursive
