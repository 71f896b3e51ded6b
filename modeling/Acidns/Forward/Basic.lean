import Acidns.Recursive.Response

/-!
# Forwarding

The functions of `forward/forward.go`, `forward/bailiwick.go` and `forward/cache.go` that look at one
message or at the cache: the query that goes upstream, the filter on what comes back, the entry that
is made of it, and the replies.
-/

namespace Acidns

/-! ### Requests -/

/-- The verdict of `PreflightRequest`, with the reply if there is one. -/
inductive Preflight where
  | accept
  | drop
  | reply (m : Message)
  deriving DecidableEq

def formErrUDPSize : UInt16 := 1232

def formErrReply (q : Message) : Message :=
  let flags := ((q.flags.withResponse true).withRecursionAvailable false).withRCODE .formErr
  let edns := q.edns.map fun e =>
    let size := if e.udpSize = 0 ∨ e.udpSize > formErrUDPSize then formErrUDPSize else e.udpSize
    (⟨size, 0, e.version, e.do_, []⟩ : EDNS)
  ⟨q.id, flags, [], [], [], [], edns⟩

/-- What is answered before the handler proper. -/
def preflightRequest (q : Message) : Preflight :=
  if q.flags.response then .drop
  else
    let op := q.flags.opcode
    if (op = Opcode.query ∨ op = Opcode.update ∨ op = Opcode.notify) ∧ q.questions.length ≠ 1 then
      .reply (formErrReply q)
    else .accept

namespace Forward

structure Config where
  /-- The bound on the cache; none caches if it is not positive. -/
  cacheSize : Int
  minTTL : Duration
  maxTTL : Duration
  maxNegTTL : Duration
  maxInflight : Int
  allowNoRD : Bool

def defaultConfig : Config := ⟨4096, 0, 24 * 3600 * second, 5 * 60 * second, 1024, false⟩

def edsoDOBit (q : Message) : Bool := (q.edns.map EDNS.do_).getD false

def isForwardSafeEDNSOption (code : UInt16) : Bool := code ∈ [(5 : UInt16), 6, 7, 11, 12, 15]

/-- `EDNSBuilder.Build` refuses an option code that comes twice. -/
def buildEDNS (e : EDNS) : Option EDNS := if (e.opts.map EDNSOption.code).Nodup then some e else none

/-- What goes upstream: the question and the options that may travel. -/
def buildForwardQuery (id : UInt16) (q : Message) : Message :=
  let flags := ((0 : Flags).withRecursionDesired true).withCheckingDisabled q.flags.checkingDisabled
  let edns := q.edns.bind fun e => buildEDNS { e with opts := e.opts.filter fun o => isForwardSafeEDNSOption o.code }
  ⟨id, flags, q.questions, [], [], [], edns⟩

def buildErrorResponse (q : Message) (code : RCODE) : Message :=
  let flags := (0 : Flags).withResponse true |>.withRecursionDesired q.flags.recursionDesired
    |>.withRecursionAvailable true |>.withRCODE code
  ⟨q.id, flags, q.questions, [], [], [], none⟩

def replyFlags (q : Message) (ad : Bool) (rcode : RCODE) : Flags :=
  (0 : Flags).withResponse true |>.withRecursionDesired q.flags.recursionDesired
    |>.withRecursionAvailable true |>.withCheckingDisabled q.flags.checkingDisabled
    |>.withAuthenticData ad |>.withRCODE rcode

/-- The upstream response under the client's id and question. -/
def rebuildForClient (q resp : Message) : Message :=
  ⟨q.id, replyFlags q resp.flags.authenticData resp.flags.rcode, q.questions, resp.answers, resp.authorities,
    resp.additionals, resp.edns⟩

/-! ### The bailiwick filter -/

def nameKey (n : Name) : Bytes := n.appendWire []

def isAtOrAbove (ancestor descendant : Name) : Bool := Recursive.inBailiwick ancestor descendant

def keepAuthority (qname : Name) (r : Record) : Bool :=
  isAtOrAbove r.name qname && !(r.name.isRoot && !qname.isRoot)

/-- The response without records the zone has no say over. -/
def filterBailiwick (qname : Name) (resp : Message) : Message :=
  let chain := Recursive.cnameChain qname resp.answers
  let answers := resp.answers.filter fun r => nameKey r.name ∈ chain
  let authorities := resp.authorities.filter (keepAuthority qname)
  let referenced :=
    (answers.filterMap Recursive.cnameTarget ++ authorities.filterMap Recursive.nsTarget).map nameKey
  let additionals := resp.additionals.filter fun r => r.type = .opt ∨ nameKey r.name ∈ referenced
  { resp with answers, authorities, additionals }

/-! ### Entries of the cache -/

/-- A cached response. -/
structure Entry where
  answers : List Record
  authority : List Record
  additional : List Record
  rcode : RCODE
  ad : Bool
  insertedAt : Int
  expiresAt : Int
  deriving DecidableEq

def minTTL (records : List Record) : Duration := Recursive.minTTL 0 records

def clamp (v lo hi : Duration) : Duration :=
  let v := if v < lo then lo else v
  if 0 < hi ∧ hi < v then hi else v

def negativeTTLFromSOA (authority : List Record) (maxNeg : Duration) : Option Duration :=
  (authority.findSome? fun r => r.asSOA.map fun soa => min (min r.ttl soa.minimum) maxNeg).bind fun ttl =>
    if ttl ≤ 0 then none else some ttl

/-- The entry of a response that may be cached. -/
def makeEntry (resp : Message) (cfg : Config) (now : Int) : Option Entry :=
  let entry (answers : List Record) (ttl : Duration) : Entry :=
    ⟨answers, resp.authorities, resp.additionals, resp.flags.rcode, resp.flags.authenticData, now, now + ttl⟩
  if resp.flags.rcode = RCODE.noError then
    if resp.answers.length > 0 then
      let ttl := clamp (minTTL (resp.answers ++ resp.authorities)) cfg.minTTL cfg.maxTTL
      if ttl ≤ 0 then none else some (entry resp.answers ttl)
    else (negativeTTLFromSOA resp.authorities cfg.maxNegTTL).map (entry [])
  else if resp.flags.rcode = RCODE.nxDomain then
    some (entry [] ((negativeTTLFromSOA resp.authorities cfg.maxNegTTL).getD cfg.maxNegTTL))
  else none

def adjustTTL (elapsed : Duration) (r : Record) : Record :=
  newRecordClass r.name r.class_ (max (r.ttl - elapsed) 0) r.rd

/-- A hit, with its TTLs reduced by its age. -/
def buildFromCache (q : Message) (e : Entry) (now : Int) : Message :=
  let elapsed := now - e.insertedAt
  ⟨q.id, replyFlags q e.ad e.rcode, q.questions, e.answers.map (adjustTTL elapsed), e.authority.map (adjustTTL elapsed),
    e.additional.map (adjustTTL elapsed), none⟩

/-! ### The cache -/

/-- The key of an entry, and of a call in flight, for which the source joins the parts into one string. -/
structure CacheKey where
  name : Bytes
  qtype : RRType
  class_ : RRClass
  do_ : Bool
  deriving DecidableEq

/-- Answers are shared by question and DO bit, whatever the CD bit. -/
def makeKey (name : Name) (qtype : RRType) (class_ : RRClass) (do_ : Bool) : CacheKey :=
  ⟨nameKey name, qtype, class_, do_⟩

def singleflightKey (qq : Question) (doBit : Bool) : CacheKey := makeKey qq.name qq.typ qq.class_ doBit

/-- A query that went upstream, with its response. -/
structure Exchange where
  query : Message
  response : Message
  deriving DecidableEq

structure CacheItem where
  key : CacheKey
  val : Entry
  /-- What the entry was made of; history only, nothing reads it. -/
  origin : Exchange
  deriving DecidableEq

/-- Most recently used first. -/
abbrev Cache := List CacheItem

namespace Cache

def get (c : Cache) (k : CacheKey) (now : Int) : Option CacheItem × Cache :=
  match c.find? fun item => item.key = k with
  | none => (none, c)
  | some item =>
    let rest := c.filter fun item => item.key ≠ k
    if now < item.val.expiresAt then (some item, item :: rest) else (none, rest)

/-- The least recently used entry gives way. -/
def put (cap : Int) (c : Cache) (item : CacheItem) : Cache :=
  if cap ≤ 0 then c
  else
    let rest := c.filter fun item' => item'.key ≠ item.key
    if c.any (fun item' => item'.key = item.key) then item :: rest
    else if ((item :: c).length : Int) > cap then (item :: c).dropLast else item :: c

variable {c : Cache} {k : CacheKey} {now : Int} {item item' : CacheItem} {cap : Int}

theorem get_eq_some (h : (get c k now).1 = some item) : item ∈ c ∧ item.key = k ∧ now < item.val.expiresAt := by
  grind [get]

theorem mem_of_mem_get (h : item ∈ (get c k now).2) : item ∈ c := by
  grind [get]

theorem mem_of_mem_put (h : item ∈ put cap c item') : item ∈ c ∨ item = item' := by
  grind [put, List.dropLast_subset]

end Cache

end Forward

end Acidns
