import Acidns.Cookies.Server
import Acidns.Tsig.Replay

/-!
# The client's cookies

The client's half of `cookies/cookies.go` with the cookie option of `wire/edns_options.go`: a table of the
cookies for each server. `Apply` draws a client cookie when it first meets a server and sends what the table
has; `Observe` and `Retry` take the cookies of a response into the table, whether or not the response
answers with the client cookie that was sent.

A run comes with what the table does not record: the client cookie that was drawn for a server, and the
cookies that arrived.
-/

namespace Acidns.Cookies

open Decoder (FixedBytes)

variable {now : Int} {resp : Message}

/-! ### The cookie option -/

def ednsOptionCookie : UInt16 := 10

def newClientCookie (clientCookie : ClientCookie) : EDNSOption := ⟨ednsOptionCookie, clientCookie.val⟩

def newClientServerCookie (clientCookie : ClientCookie) (serverCookie : Bytes) : Except CookieError EDNSOption :=
  if serverCookie.length < 8 ∨ serverCookie.length > 32 then
    .error ⟨.invalid, s!"wire: invalid DNS cookie: server cookie length {serverCookie.length} not in [8,32]"⟩
  else .ok ⟨ednsOptionCookie, clientCookie.val ++ serverCookie⟩

def cookies (o : EDNSOption) : Option (ClientCookie × Bytes) :=
  if o.code ≠ ednsOptionCookie then none
  else if h : o.data.length ≠ 8 ∧ (o.data.length < 16 ∨ o.data.length > 40) then none
  else some (⟨o.data.take 8, by rw [List.length_take]; omega⟩, o.data.drop 8)

def extractCookieFromMsg (msg : Message) : Option (ClientCookie × Bytes) := do
  let e ← msg.edns
  e.opts.findSome? cookies

def badCookie : UInt16 := 23

def combinedRCODE (msg : Message) : UInt16 :=
  let low := msg.flags.rcode.toUInt16
  match msg.edns with
  | some e => e.extRCODE.toUInt16 <<< 4 ||| (low &&& 0x0f)
  | none => low

/-! ### The table of cookies -/

abbrev AddrPort := Addr × UInt16

structure ClientEntry where
  clientCookie : ClientCookie
  serverCookie : Bytes
  updated : Int
  /-- The BADCOOKIE responses since the last successful one. -/
  badCookieStreak : UInt8

def ClientEntry.zero : ClientEntry := ⟨⟨List.replicate 8 0, rfl⟩, [], Tsig.zeroTime, 0⟩

/-- The cookies of each server spoken to. -/
structure Client where
  cache : Table AddrPort ClientEntry
  maxEntries : Int
  rngFailures : UInt64

def defaultClientMaxEntries : Int := 8192

def maxBadCookieRetries : UInt8 := 1

def newClient (maxEntries : Option Int) : Client := ⟨∅, maxEntries.getD defaultClientMaxEntries, 0⟩

namespace Client

/-- Drops the entry that was updated first; of several, the one the loop over the map meets first. -/
def evictLocked (c : Client) (order : Table.Order AddrPort ClientEntry) : Client :=
  match Table.leastKey ClientEntry.updated (order.visit c.cache.entries) with
  | none => c
  | some k => { c with cache := c.cache.erase k }

def makeRoom (c : Client) (order : Table.Order AddrPort ClientEntry) : Client :=
  if c.maxEntries > 0 ∧ c.maxEntries ≤ c.cache.size then c.evictLocked order else c

def store (c : Client) (server : AddrPort) (e : ClientEntry) : Client := { c with cache := c.cache.insert server e }

def cookieOption (e : ClientEntry) : EDNSOption :=
  if e.serverCookie.length ≥ 8 then
    match newClientServerCookie e.clientCookie e.serverCookie with
    | .ok o => o
    | .error _ => newClientCookie e.clientCookie
  else newClientCookie e.clientCookie

/-- The query with the cookies known for the server. -/
def apply (c : Client) (server : AddrPort) (now : Int) (draw : Option ClientCookie) (b : EDNS)
    (order : Table.Order AddrPort ClientEntry) : EDNS × Client :=
  match c.cache.lookup server with
  | some e =>
    let e := { e with updated := now }
    ({ b with opts := b.opts ++ [cookieOption e] }, c.store server e)
  | none =>
    match draw with
    | none => (b, { c with rngFailures := c.rngFailures + 1 })
    | some cc =>
      let e := ⟨cc, [], now, 0⟩
      ({ b with opts := b.opts ++ [cookieOption e] }, (c.makeRoom order).store server e)

def roomFor (c : Client) (server : AddrPort) (order : Table.Order AddrPort ClientEntry) : Client :=
  if server ∈ c.cache then c else c.makeRoom order

def entryFor (c : Client) (server : AddrPort) : ClientEntry := (c.cache.lookup server).getD ClientEntry.zero

/-- What a response leaves behind. -/
def observe (c : Client) (server : AddrPort) (resp : Message) (now : Int)
    (order : Table.Order AddrPort ClientEntry) : Client :=
  match extractCookieFromMsg resp with
  | none => c
  | some (cc, sc) =>
    if sc.length < 8 then c
    else
      let e := c.entryFor server
      (c.roomFor server order).store server
        { e with clientCookie := cc, serverCookie := sc, updated := now, badCookieStreak := 0 }

/-- A BADCOOKIE answer is retried once in a row. -/
def retry (c : Client) (server : AddrPort) (resp : Message) (now : Int)
    (order : Table.Order AddrPort ClientEntry) : Except CookieError Bool × Client :=
  if combinedRCODE resp ≠ badCookie then (.ok false, c)
  else
    match extractCookieFromMsg resp with
    | none => (.error ⟨.missing, "cookies: no DNS cookie option present"⟩, c)
    | some (cc, sc) =>
      if sc.length < 8 then (.error ⟨.tooShort, "cookies: server cookie too short"⟩, c)
      else
        let e := c.entryFor server
        if e.badCookieStreak ≥ maxBadCookieRetries then
          (.error ⟨.retryExhausted, "cookies: per-server BADCOOKIE retry budget exhausted"⟩,
            (c.roomFor server order).store server { e with badCookieStreak := 0 })
        else
          (.ok true, (c.roomFor server order).store server
            { e with clientCookie := cc, serverCookie := sc, updated := now, badCookieStreak := e.badCookieStreak + 1 })

end Client

/-! ### Runs -/

inductive Call where
  | apply (server : AddrPort) (now : Int) (draw : Option ClientCookie) (b : EDNS) (order : Table.Order AddrPort ClientEntry)
  | observe (server : AddrPort) (resp : Message) (now : Int) (order : Table.Order AddrPort ClientEntry)
  | retry (server : AddrPort) (resp : Message) (now : Int) (order : Table.Order AddrPort ClientEntry)

def Client.call (c : Client) : Call → Client
  | .apply server now draw b order => (c.apply server now draw b order).2
  | .observe server resp now order => c.observe server resp now order
  | .retry server resp now order => (c.retry server resp now order).2

/-- What was drawn and what arrived so far. -/
structure Trace where
  drawn : AddrPort → Option ClientCookie
  arrived : List (AddrPort × ClientCookie × Bytes)

def Trace.empty : Trace := ⟨fun _ => none, []⟩

def usableCookies (resp : Message) : Option (ClientCookie × Bytes) :=
  (extractCookieFromMsg resp).filter fun cookies => 8 ≤ cookies.2.length

namespace Call

def response : Call → Option (AddrPort × Message)
  | .apply .. => none
  | .observe server resp .. => some (server, resp)
  | .retry server resp .. => some (server, resp)

def drawnFor (server : AddrPort) : Call → Option ClientCookie
  | .apply server' _ draw .. => if server' = server then draw else none
  | _ => none

def arrivals (call : Call) : List (AddrPort × ClientCookie × Bytes) :=
  (call.response.bind fun r => (extractCookieFromMsg r.2).map fun cookies => (r.1, cookies)).toList

def offer : Call → Option (AddrPort × ClientCookie × Bytes)
  | .apply .. => none
  | .observe server resp .. => (usableCookies resp).map (server, ·)
  | .retry server resp .. => if combinedRCODE resp = badCookie then (usableCookies resp).map (server, ·) else none

end Call

/-- A server that leaves the table is forgotten, and one that comes into it is met for the first time. -/
def Trace.after (t : Trace) (c : Client) (call : Call) : Trace where
  drawn server :=
    if server ∈ (c.call call).cache then if server ∈ c.cache then t.drawn server else call.drawnFor server else none
  arrived := call.arrivals ++ t.arrived

/-- `Apply` sends the client cookie first drawn for the server, with a server cookie that arrived with it. -/
def SendsDrawn (c : Client) (t : Trace) : Prop :=
  ∀ server now draw b order,
    (server ∉ c.cache ∧ draw = none ∧ (c.apply server now draw b order).1 = b) ∨
    ∃ o cc sc, (c.apply server now draw b order).1 = { b with opts := b.opts ++ [o] } ∧ cookies o = some (cc, sc) ∧
      (t.after c (.apply server now draw b order)).drawn server = some cc ∧ (sc = [] ∨ (server, cc, sc) ∈ t.arrived)

def IgnoresForeign (c : Client) (call : Call) : Prop :=
  ∀ server resp, call.response = some (server, resp) → ∀ cookies ∈ extractCookieFromMsg resp,
    ∀ e ∈ c.cache.lookup server, cookies.1 ≠ e.clientCookie → c.call call = c

/-- At every call: what would be sent was drawn here, and foreign responses change nothing. -/
def Sound : Client → Trace → List Call → Prop
  | c, t, [] => SendsDrawn c t
  | c, t, call :: calls => SendsDrawn c t ∧ IgnoresForeign c call ∧ Sound (c.call call) (t.after c call) calls

/-- A response that would be written to the table comes with the client cookie that is in it. -/
def Solicited (c : Client) (call : Call) : Prop :=
  ∀ offer ∈ call.offer, ∃ e ∈ c.cache.lookup offer.1, e.clientCookie = offer.2.1

def AllSolicited : Client → List Call → Prop
  | _, [] => True
  | c, call :: calls => Solicited c call ∧ AllSolicited (c.call call) calls

/-! ### What a call does -/

section Calls

variable {c : Client} {call : Call} {server k : AddrPort} {e : ClientEntry} {cc : ClientCookie} {sc : Bytes}
  {order : Table.Order AddrPort ClientEntry}

theorem Client.lookup_store :
    (c.store server e).cache.lookup k = if k = server then some e else c.cache.lookup k := Table.lookup_insert_eq

theorem Client.lookup_makeRoom (h : (c.makeRoom order).cache.lookup k = some e) : c.cache.lookup k = some e := by
  grind [makeRoom, evictLocked, Table.lookup_of_lookup_erase]

theorem Client.lookup_roomFor (h : (c.roomFor server order).cache.lookup k = some e) : c.cache.lookup k = some e := by
  unfold roomFor at h
  split at h
  · exact h
  · exact lookup_makeRoom h

theorem mem_cache_iff : server ∈ c.cache ↔ ∃ e, c.cache.lookup server = some e :=
  AList.lookup_isSome.symm.trans Option.isSome_iff_exists

theorem cookies_newClientCookie : cookies (newClientCookie cc) = some (cc, []) := by
  grind [cookies, newClientCookie]

theorem cookies_newClientServerCookie {o : EDNSOption} (h : newClientServerCookie cc sc = .ok o) :
    cookies o = some (cc, sc) := by
  grind [newClientServerCookie, cookies]

theorem cookies_cookieOption (e : ClientEntry) : ∃ sc, cookies (Client.cookieOption e) = some (e.clientCookie, sc) ∧
    (sc = [] ∨ sc = e.serverCookie) := by
  grind [Client.cookieOption, cookies_newClientCookie, cookies_newClientServerCookie]

theorem Client.apply_of_lookup (h : c.cache.lookup server = some e) (now : Int) (draw : Option ClientCookie) (b : EDNS)
    (order : Table.Order AddrPort ClientEntry) :
    c.apply server now draw b order = ({ b with opts := b.opts ++ [cookieOption { e with updated := now }] },
      c.store server { e with updated := now }) := by
  unfold apply
  rw [h]

theorem Client.apply_none (h : server ∉ c.cache) (now : Int) (b : EDNS)
    (order : Table.Order AddrPort ClientEntry) :
    c.apply server now none b order = (b, { c with rngFailures := c.rngFailures + 1 }) := by
  unfold apply
  rw [AList.lookup_eq_none.mpr h]

theorem Client.apply_some (h : server ∉ c.cache) (now : Int) (b : EDNS)
    (order : Table.Order AddrPort ClientEntry) :
    c.apply server now (some cc) b order = ({ b with opts := b.opts ++ [cookieOption ⟨cc, [], now, 0⟩] },
      (c.makeRoom order).store server ⟨cc, [], now, 0⟩) := by
  unfold apply
  rw [AList.lookup_eq_none.mpr h]

theorem usableCookies_eq_some :
    usableCookies resp = some (cc, sc) ↔ extractCookieFromMsg resp = some (cc, sc) ∧ ¬sc.length < 8 := by
  rw [usableCookies, Option.filter_eq_some_iff, Nat.not_lt, decide_eq_true_iff]

theorem usableCookies_eq_none (h : usableCookies resp = none)
    (hextract : extractCookieFromMsg resp = some (cc, sc)) : sc.length < 8 := by
  grind [usableCookies]

theorem Client.observe_none (h : usableCookies resp = none) :
    c.observe server resp now order = c := by
  grind [observe, usableCookies_eq_none]

theorem Client.retry_none (h : combinedRCODE resp = badCookie → usableCookies resp = none) :
    (c.retry server resp now order).2 = c := by
  grind [retry, usableCookies_eq_none]

theorem Client.observe_some (h : usableCookies resp = some (cc, sc)) :
    c.observe server resp now order = (c.roomFor server order).store server
      { c.entryFor server with clientCookie := cc, serverCookie := sc, updated := now, badCookieStreak := 0 } := by
  grind [observe, usableCookies]

theorem Client.retry_some (hcode : combinedRCODE resp = badCookie)
    (h : usableCookies resp = some (cc, sc)) :
    (c.retry server resp now order).2 = (c.roomFor server order).store server
      (if (c.entryFor server).badCookieStreak ≥ maxBadCookieRetries then { c.entryFor server with badCookieStreak := 0 }
      else { c.entryFor server with
        clientCookie := cc, serverCookie := sc, updated := now
        badCookieStreak := (c.entryFor server).badCookieStreak + 1 }) := by
  grind [retry, usableCookies]

theorem Client.call_of_no_offer {r : AddrPort × Message} (hresponse : call.response = some r) (h : call.offer = none) :
    c.call call = c := by
  cases call with
  | apply server now draw b order => cases hresponse
  | observe server resp now order => exact observe_none (Option.map_eq_none_iff.mp h)
  | retry server resp now order =>
    apply retry_none
    intro hcode
    change (if combinedRCODE resp = badCookie then (usableCookies resp).map (server, ·) else none) = none at h
    rw [if_pos hcode] at h
    exact Option.map_eq_none_iff.mp h

theorem Client.call_of_offer (h : call.offer = some (server, cc, sc)) :
    (∃ resp, call.response = some (server, resp) ∧ extractCookieFromMsg resp = some (cc, sc)) ∧
    ∃ order e, c.call call = (c.roomFor server order).store server e ∧
      ((e.clientCookie = cc ∧ e.serverCookie = sc) ∨
        (maxBadCookieRetries ≤ (c.entryFor server).badCookieStreak ∧
          e = { c.entryFor server with badCookieStreak := 0 })) := by
  cases call with
  | apply server' now draw b order => cases h
  | observe server' resp now order =>
    obtain ⟨cookies, hcookies, heq⟩ := Option.map_eq_some_iff.mp h
    cases heq
    exact ⟨⟨resp, rfl, (usableCookies_eq_some.mp hcookies).1⟩, _, _, observe_some hcookies, .inl ⟨rfl, rfl⟩⟩
  | retry server' resp now order =>
    change (if combinedRCODE resp = badCookie then (usableCookies resp).map (server', ·) else none) = _ at h
    split at h
    · rename_i hcode
      obtain ⟨cookies, hcookies, heq⟩ := Option.map_eq_some_iff.mp h
      cases heq
      refine ⟨⟨resp, rfl, (usableCookies_eq_some.mp hcookies).1⟩, _, _, retry_some hcode hcookies, ?_⟩
      split
      · rename_i hstreak
        exact .inr ⟨hstreak, rfl⟩
      · exact .inl ⟨rfl, rfl⟩
    · cases h

theorem Call.mem_arrivals (h : call.offer = some (server, cc, sc)) : (server, cc, sc) ∈ call.arrivals := by
  obtain ⟨⟨resp, hresponse, hcookies⟩, -⟩ := Client.call_of_offer (c := newClient none) h
  simp [arrivals, hresponse, hcookies]

end Calls

/-! ### Integrity -/

section Integrity

variable {c : Client} {t : Trace} {call : Call} {server : AddrPort} {e : ClientEntry} {cc : ClientCookie} {sc : Bytes}

/-- Each entry has the client cookie drawn for the server, and a server cookie that arrived with it. -/
def Faithful (c : Client) (t : Trace) : Prop :=
  ∀ server e, c.cache.lookup server = some e →
    t.drawn server = some e.clientCookie ∧
      (e.serverCookie = [] ∨ (server, e.clientCookie, e.serverCookie) ∈ t.arrived)

theorem Trace.drawn_after (h : server ∈ c.cache) (h' : server ∈ (c.call call).cache) :
    (t.after c call).drawn server = t.drawn server := by
  change (if _ then if _ then _ else _ else _) = _
  rw [if_pos h', if_pos h]

theorem Trace.drawn_after_new (h : server ∉ c.cache) (h' : server ∈ (c.call call).cache) :
    (t.after c call).drawn server = call.drawnFor server := by
  change (if _ then if _ then _ else _ else _) = _
  rw [if_pos h', if_neg h]

theorem Client.mem_store : server ∈ (c.store server e).cache := (AList.mem_insert _).mpr (.inl rfl)

theorem sendsDrawn_of_lookup (hsends : SendsDrawn c t) (h : c.cache.lookup server = some e) :
    t.drawn server = some e.clientCookie := by
  have hmem : server ∈ c.cache := mem_cache_iff.mpr ⟨e, h⟩
  rcases hsends server 0 none ⟨0, 0, 0, false, []⟩ .stored with ⟨hnot, -⟩ | ⟨o, cc, sc, happly, hcookies, hdrawn, -⟩
  · exact absurd hmem hnot
  · rw [Client.apply_of_lookup h] at happly
    obtain rfl : Client.cookieOption { e with updated := 0 } = o :=
      List.singleton_inj.mp (congrArg EDNS.opts happly)
    obtain ⟨sc', hread, -⟩ := cookies_cookieOption { e with updated := 0 }
    cases hread.symm.trans hcookies
    have hstays : server ∈ (c.call (.apply server 0 none ⟨0, 0, 0, false, []⟩ .stored)).cache := by
      rw [Client.call, Client.apply_of_lookup h]
      exact Client.mem_store
    rw [Trace.drawn_after hmem hstays] at hdrawn
    exact hdrawn

theorem Faithful.sendsDrawn (h : Faithful c t) : SendsDrawn c t := by
  intro server now draw b order
  by_cases hmem : server ∈ c.cache
  · obtain ⟨e, he⟩ := mem_cache_iff.mp hmem
    obtain ⟨hdrawn, harrived⟩ := h server e he
    obtain ⟨sc, hread, hsc⟩ := cookies_cookieOption { e with updated := now }
    have hstays : server ∈ (c.call (.apply server now draw b order)).cache := by
      rw [Client.call, Client.apply_of_lookup he]
      exact Client.mem_store
    refine .inr ⟨_, e.clientCookie, sc, by rw [Client.apply_of_lookup he], hread, ?_, ?_⟩
    · rw [Trace.drawn_after hmem hstays]
      exact hdrawn
    · rcases hsc with rfl | rfl
      · exact .inl rfl
      · exact harrived
  · cases draw with
    | none => exact .inl ⟨hmem, rfl, by rw [Client.apply_none hmem]⟩
    | some cc =>
      obtain ⟨sc, hread, hsc⟩ := cookies_cookieOption ⟨cc, [], now, 0⟩
      have hcomes : server ∈ (c.call (.apply server now (some cc) b order)).cache := by
        rw [Client.call, Client.apply_some hmem]
        exact Client.mem_store
      refine .inr ⟨_, cc, sc, by rw [Client.apply_some hmem], hread, ?_, .inl (or_self_iff.mp hsc)⟩
      rw [Trace.drawn_after_new hmem hcomes]
      exact if_pos rfl

theorem Faithful.of_cache_eq (h : Faithful c t) (hcache : (c.call call).cache = c.cache) :
    Faithful (c.call call) (t.after c call) := by
  intro server e he
  have hmem : server ∈ (c.call call).cache := mem_cache_iff.mpr ⟨e, he⟩
  rw [hcache] at he
  obtain ⟨hdrawn, harrived⟩ := h server e he
  refine ⟨?_, harrived.imp_right (List.mem_append_right _)⟩
  rw [Trace.drawn_after (mem_cache_iff.mpr ⟨e, he⟩) hmem]
  exact hdrawn

theorem Faithful.of_store {room : Client} (h : Faithful c t) (hcall : c.call call = room.store server e)
    (hroom : ∀ k e, room.cache.lookup k = some e → c.cache.lookup k = some e)
    (hdrawn : (t.after c call).drawn server = some e.clientCookie)
    (harrived : e.serverCookie = [] ∨ (server, e.clientCookie, e.serverCookie) ∈ (t.after c call).arrived) :
    Faithful (c.call call) (t.after c call) := by
  intro k e' he'
  have hmem : k ∈ (c.call call).cache := mem_cache_iff.mpr ⟨e', he'⟩
  rw [hcall, Client.lookup_store] at he'
  split at he'
  · rename_i hk
    cases he'
    rw [hk]
    exact ⟨hdrawn, harrived⟩
  · have hold := hroom k e' he'
    obtain ⟨hdrawn', harrived'⟩ := h k e' hold
    refine ⟨?_, harrived'.imp_right (List.mem_append_right _)⟩
    rw [Trace.drawn_after (mem_cache_iff.mpr ⟨e', hold⟩) hmem]
    exact hdrawn'

theorem Faithful.apply (h : Faithful c t) (server : AddrPort) (now : Int) (draw : Option ClientCookie) (b : EDNS)
    (order : Table.Order AddrPort ClientEntry) :
    Faithful (c.call (.apply server now draw b order)) (t.after c (.apply server now draw b order)) := by
  by_cases hmem : server ∈ c.cache
  · obtain ⟨e, he⟩ := mem_cache_iff.mp hmem
    have hcall : c.call (.apply server now draw b order) = c.store server { e with updated := now } := by
      rw [Client.call, Client.apply_of_lookup he]
    obtain ⟨hdrawn, harrived⟩ := h server e he
    refine h.of_store hcall (fun _ _ => id) ?_ harrived
    rw [Trace.drawn_after hmem (by rw [hcall]; exact Client.mem_store)]
    exact hdrawn
  · cases draw with
    | none =>
      apply h.of_cache_eq
      rw [Client.call, Client.apply_none hmem]
    | some cc =>
      have hcall : c.call (.apply server now (some cc) b order) = (c.makeRoom order).store server ⟨cc, [], now, 0⟩ := by
        rw [Client.call, Client.apply_some hmem]
      refine h.of_store hcall (fun _ _ => Client.lookup_makeRoom) ?_ (.inl rfl)
      rw [Trace.drawn_after_new hmem (by rw [hcall]; exact Client.mem_store)]
      exact if_pos rfl

theorem Client.entryFor_of_lookup (h : c.cache.lookup server = some e) : c.entryFor server = e := by
  rw [entryFor, h, Option.getD_some]

/-- **One call.** As long as the responses come with the stored client cookies, the entries stay faithful. -/
theorem Faithful.step (h : Faithful c t) (hsolicited : Solicited c call) :
    Faithful (c.call call) (t.after c call) := by
  cases hresponse : call.response with
  | none =>
    cases call with
    | apply server now draw b order => exact h.apply server now draw b order
    | observe server resp now order => cases hresponse
    | retry server resp now order => cases hresponse
  | some r =>
    cases hoffer : call.offer with
    | none =>
      apply h.of_cache_eq
      rw [Client.call_of_no_offer hresponse hoffer]
    | some offer =>
      obtain ⟨server, cc, sc⟩ := offer
      obtain ⟨e, he, rfl⟩ := hsolicited _ hoffer
      obtain ⟨-, order, e', hcall, hentry⟩ := Client.call_of_offer (c := c) hoffer
      obtain ⟨hdrawn, harrived⟩ := h server e he
      have hdrawn' : (t.after c call).drawn server = some e.clientCookie := by
        rw [Trace.drawn_after (mem_cache_iff.mpr ⟨e, he⟩) (by rw [hcall]; exact Client.mem_store)]
        exact hdrawn
      rw [Client.entryFor_of_lookup he] at hentry
      rcases hentry with ⟨hcc, hsc⟩ | ⟨-, rfl⟩
      · refine h.of_store hcall (fun _ _ => Client.lookup_roomFor) (hcc ▸ hdrawn') (.inr ?_)
        rw [hcc, hsc]
        exact List.mem_append_left _ (Call.mem_arrivals hoffer)
      · exact h.of_store hcall (fun _ _ => Client.lookup_roomFor) hdrawn'
          (harrived.imp_right (List.mem_append_right _))

theorem ignoresForeign_of_solicited (hsolicited : Solicited c call) : IgnoresForeign c call := by
  intro server resp hresponse cookies hcookies e he hne
  cases hoffer : call.offer with
  | none => exact Client.call_of_no_offer hresponse hoffer
  | some offer =>
    obtain ⟨⟨resp', hresponse', hcookies'⟩, -⟩ := Client.call_of_offer (c := c) hoffer
    cases hresponse.symm.trans hresponse'
    cases hcookies.symm.trans hcookies'
    obtain ⟨e', he', heq⟩ := hsolicited offer hoffer
    cases he.symm.trans he'
    exact absurd heq.symm hne

theorem solicited_of_ignoresForeign (hignores : IgnoresForeign c call)
    (hsends : SendsDrawn (c.call call) (t.after c call)) : Solicited c call := by
  rintro ⟨server, cc, sc⟩ hoffer
  obtain ⟨⟨resp, hresponse, hcookies⟩, order, e', hcall, hentry⟩ := Client.call_of_offer (c := c) hoffer
  have hlookup : (c.call call).cache.lookup server = some e' := by
    rw [hcall, Client.lookup_store, if_pos rfl]
  have hdrawn := sendsDrawn_of_lookup hsends hlookup
  by_cases hmem : server ∈ c.cache
  · obtain ⟨e, he⟩ := mem_cache_iff.mp hmem
    refine ⟨e, he, ?_⟩
    by_contra hne
    have hsame := hignores server resp hresponse _ hcookies e he (Ne.symm hne)
    rw [hsame, he] at hlookup
    obtain rfl := Option.some.inj hlookup
    rw [Client.entryFor_of_lookup he] at hentry
    rcases hentry with ⟨hcc, -⟩ | ⟨hstreak, heq⟩
    · exact hne hcc
    · -- the streak was cleared
      have hzero : e.badCookieStreak = 0 := congrArg ClientEntry.badCookieStreak heq
      rw [hzero] at hstreak
      exact absurd hstreak (by decide)
  · -- the server was never met
    rw [Trace.drawn_after_new hmem (mem_cache_iff.mpr ⟨e', hlookup⟩)] at hdrawn
    cases call with
    | apply server now draw b order => cases hresponse
    | observe server resp now order => cases hdrawn
    | retry server resp now order => cases hdrawn

theorem Faithful.sound_iff {calls : List Call} (h : Faithful c t) : Sound c t calls ↔ AllSolicited c calls := by
  induction calls generalizing c t with
  | nil => exact iff_of_true h.sendsDrawn trivial
  | cons call calls ih =>
    constructor
    · rintro ⟨-, hignores, hsound⟩
      have hsends : SendsDrawn (c.call call) (t.after c call) := by
        cases calls with
        | nil => exact hsound
        | cons => exact hsound.1
      have hsolicited := solicited_of_ignoresForeign hignores hsends
      exact ⟨hsolicited, (ih (h.step hsolicited)).mp hsound⟩
    · rintro ⟨hsolicited, hall⟩
      exact ⟨h.sendsDrawn, ignoresForeign_of_solicited hsolicited, (ih (h.step hsolicited)).mpr hall⟩

/-- **Integrity of the client's cookies.** `Apply` sends the cookie first drawn for a server, with a server cookie that
answered it, and foreign responses change nothing, exactly if every response that reaches the table has the client
cookie stored there. -/
theorem sound_iff_allSolicited (maxEntries : Option Int) (calls : List Call) :
    Sound (newClient maxEntries) Trace.empty calls ↔ AllSolicited (newClient maxEntries) calls := by
  apply Faithful.sound_iff
  intro server e he
  cases he

end Integrity

/-! ### A forged response -/

def sampleServer : AddrPort := (sampleAddr, 53)

def foreignCookie : ClientCookie := ⟨List.replicate 8 0xff, rfl⟩

def forgedResponse : Message :=
  ⟨0, Flags.qr, [], [], [], [], some ⟨1232, 0, 0, false, [⟨ednsOptionCookie, foreignCookie.val ++ List.replicate 8 0xee⟩]⟩⟩

def forgedRun : List Call :=
  [.apply sampleServer 0 (some sampleClientCookie) ⟨1232, 0, 0, false, []⟩ .stored,
    .observe sampleServer forgedResponse 0 .stored]

/-- After the forged response the client sends the foreign cookie. -/
theorem apply_sends_foreign :
    ((forgedRun.foldl Client.call (newClient none)).apply sampleServer 0 none ⟨1232, 0, 0, false, []⟩ .stored).1.opts =
      [⟨ednsOptionCookie, foreignCookie.val ++ List.replicate 8 0xee⟩] ∧
    ¬Sound (newClient none) Trace.empty forgedRun := by
  refine ⟨by decide +kernel, ?_⟩
  rintro ⟨-, -, -, hignores, -⟩
  have hsame := hignores sampleServer forgedResponse rfl (foreignCookie, List.replicate 8 0xee)
    (by decide +kernel) ⟨sampleClientCookie, [], 0, 0⟩ rfl (by decide)
  have hentry := congrArg (fun c : Client => (c.cache.lookup sampleServer).map ClientEntry.clientCookie) hsame
  exact absurd hentry (by decide +kernel)

end Acidns.Cookies
