import Acidns.Server.Udp
import Acidns.Cookies.Client

/-!
# The gate on large responses

`middleware_cookies.go`: the handler that checks the cookies of queries and gives out fresh ones. A client without
a valid server cookie may have forged its address, so over UDP a large response to it is cut down. The size is
measured on the message that the inner handler writes, and the fresh cookie is attached behind that.

A writer is what becomes of the messages that go through it: it changes the first, and lets the others pass.
-/

namespace Acidns.Cookies

open List

/-! ### The handler -/

structure CookiesMW where
  requireForLarge : Bool
  largeRespMaxSize : Int

def newCookies (requireForLarge : Option Bool) (maxBytes : Option Int) : CookiesMW :=
  ⟨requireForLarge.getD true, (maxBytes.filter (0 < ·)).getD 1232⟩

def isUDPNetwork (net : String) : Bool := net = "udp" || net = "dnscrypt"

def extractCookies (q : Message) : Option (ClientCookie × Bytes) :=
  match q.edns with
  | none => none
  | some e =>
    match e.opts.filter fun o => o.code = ednsOptionCookie with
    | [o] => cookies o
    | _ => none

/-- What is sent in place of a large answer. -/
def truncateForCookieGate (m q : Message) : Message :=
  m.cutDown (if m.questions.length > 0 then m.questions.head? else q.questions.head?)

def gated (q : Message) (maxBytes : Int) (m : Message) : Message :=
  match m.pack with
  | .ok buf => if buf.length ≤ maxBytes then m else truncateForCookieGate m q
  | .error _ => truncateForCookieGate m q

def buildBadCookieResponse (q : Message) (cc : ClientCookie) (sc : Bytes) : Message :=
  let cookieOpt := (newClientServerCookie cc sc).toOption.getD ⟨0, []⟩
  let udpSize := ((q.edns.map EDNS.udpSize).filter (· ≠ 0)).getD 1232
  let flags := ((0 : Flags).withResponse true |>.withRecursionDesired q.flags.recursionDesired).withRCODE 7
  ⟨q.id, flags, q.questions.head?.toList, [], [], [], some ⟨udpSize, 1, 0, false, [cookieOpt]⟩⟩

def withCookie (edns : Option EDNS) (cookieOpt : EDNSOption) : EDNS :=
  match edns with
  | some e => { e with opts := (e.opts.filter fun o => o.code ≠ ednsOptionCookie) ++ [cookieOpt] }
  | none => ⟨1232, 0, 0, false, [cookieOpt]⟩

def attachCookieOption (m : Message) (cc : ClientCookie) (sc : Bytes) : Message :=
  match newClientServerCookie cc sc with
  | .error _ => m
  | .ok cookieOpt =>
    match Forward.buildEDNS (withCookie m.edns cookieOpt) with
    | none => m
    | some ed => { m with edns := some ed }

def onFirst (f : Message → Message) : List Message → List Message
  | [] => []
  | m :: ms => f m :: ms

section HMAC

variable (hmac : Bytes → Bytes → Decoder.FixedBytes 32)

/-- `ServeDNS`: what goes to the outer writer when the inner handler writes the messages `written`. -/
def CookiesMW.serveDNS (mw : CookiesMW) (srv : Server) (pool : MemorySecretPool) (network : String) (addr : Addr)
    (now : Int) (q : Message) (written : List Message) : List Message :=
  match extractCookies q with
  | some (cc, sc) =>
    let fresh := Server.make hmac pool cc addr now
    let cookiesWriter := onFirst fun m => attachCookieOption m cc fresh
    if sc.length ≥ 8 then
      match srv.validate hmac pool sc cc addr now with
      | .error _ => [buildBadCookieResponse q cc fresh]
      | .ok _ => cookiesWriter written
    else if mw.requireForLarge && isUDPNetwork network then
      cookiesWriter (onFirst (gated q mw.largeRespMaxSize) written)
    else cookiesWriter written
  | none =>
    if mw.requireForLarge && isUDPNetwork network then onFirst (gated q mw.largeRespMaxSize) written else written

end HMAC

/-! ### The gate -/

/-- A reply that sends the client to TCP. -/
def IsTruncatedReply (m : Message) : Prop := m.flags.truncated = true ∧ m.flags.response = true ∧ m.records = []

/-- A small message, or a truncated reply. -/
def Harmless (maxBytes : Int) (m : Message) : Prop :=
  (∃ buf, m.pack = .ok buf ∧ buf.length ≤ maxBytes) ∨ IsTruncatedReply m

def NoServerCookie (q : Message) : Prop := ∀ cookies ∈ extractCookies q, cookies.2.length < 8

/-- The bytes that the attached option adds. -/
def cookieGrowth : Option EDNS → Int
  | none => 39
  | some e => 28 - (((e.opts.filter fun o => o.code = ednsOptionCookie).map fun o => 4 + o.data.length).sum : Nat)

def Repeats (m : Message) : Prop :=
  ∃ e ∈ m.edns, ¬((e.opts.filter fun o => o.code ≠ ednsOptionCookie).map EDNSOption.code).Nodup

/-- A response that the gate lets through leaves room for the cookie, unless an option comes twice in it. -/
def LeavesRoom (maxBytes : Int) (m : Message) : Prop :=
  ∀ buf, m.pack = .ok buf → buf.length ≤ maxBytes →
    buf.length + cookieGrowth m.edns ≤ min maxBytes 0xffff ∨
    Repeats m ∨ IsTruncatedReply m

section Gate

variable {m q : Message} {cc : ClientCookie} {sc buf : Bytes} {maxBytes : Int}

theorem isTruncatedReply_truncate (m q : Message) : IsTruncatedReply (truncateForCookieGate m q) :=
  ⟨m.flags.truncated_cutDown, m.flags.response_cutDown, rfl⟩

def freshOption (cc : ClientCookie) (sc : Bytes) : EDNSOption := ⟨ednsOptionCookie, cc.val ++ sc⟩

theorem nodup_withCookie : ((withCookie m.edns (freshOption cc sc)).opts.map EDNSOption.code).Nodup ↔ ¬Repeats m := by
  unfold Repeats withCookie
  cases m.edns with
  | none => simp
  | some e =>
    have hother : ednsOptionCookie ∉ (e.opts.filter fun o => o.code ≠ ednsOptionCookie).map EDNSOption.code := by
      simp
    simp only [map_append, map_cons, map_nil, Option.mem_def, Option.some.injEq, exists_eq_left',
      not_not]
    exact ⟨fun h => h.of_append_left, fun h => nodup_append.mpr ⟨h, nodup_singleton _, fun a ha b hb => by
      rintro rfl
      obtain rfl := mem_singleton.mp hb
      exact hother ha⟩⟩

section

variable (hsc : sc.length = 16)

include hsc

theorem attachCookieOption_eq (m : Message) (cc : ClientCookie) : (Repeats m ∧ attachCookieOption m cc sc = m) ∨
    (¬Repeats m ∧ attachCookieOption m cc sc = { m with edns := some (withCookie m.edns (freshOption cc sc)) }) := by
  have hcookie : newClientServerCookie cc sc = .ok (freshOption cc sc) := by
    rw [newClientServerCookie, if_neg (by omega)]
    rfl
  unfold attachCookieOption
  rw [hcookie]
  dsimp only
  by_cases hrepeats : Repeats m
  · refine .inl ⟨hrepeats, ?_⟩
    rw [Forward.buildEDNS, if_neg (fun h => nodup_withCookie.mp h hrepeats)]
  · refine .inr ⟨hrepeats, ?_⟩
    rw [Forward.buildEDNS, if_pos (nodup_withCookie.mpr hrepeats)]

theorem size_withCookie (edns : Option EDNS) (cc : ClientCookie) :
    ((withCookie edns (freshOption cc sc)).size : Int) = ednsSize edns + cookieGrowth edns := by
  have hfresh : (freshOption cc sc).data.length = 24 := by
    change (cc.val ++ sc).length = 24
    rw [length_append, cc.property, hsc]
  cases edns with
  | none => simp [withCookie, EDNS.size, EDNS.optSize, ednsSize, cookieGrowth, hfresh]
  | some e =>
    have hsplit : ((e.opts.filter fun o => o.code = ednsOptionCookie).map fun o => 4 + o.data.length).sum +
        ((e.opts.filter fun o => o.code ≠ ednsOptionCookie).map fun o => 4 + o.data.length).sum =
          (e.opts.map fun o => 4 + o.data.length).sum := by
      rw [← sum_append, ← map_append]
      apply List.Perm.sum_nat
      apply List.Perm.map
      simpa using filter_append_perm (fun o : EDNSOption => decide (o.code = ednsOptionCookie)) e.opts
    simp only [withCookie, EDNS.size, EDNS.optSize, ednsSize, cookieGrowth, map_append, sum_append,
      map_cons, map_nil, sum_cons, sum_nil, hfresh]
    omega

theorem isTruncatedReply_attach : IsTruncatedReply (attachCookieOption m cc sc) ↔ IsTruncatedReply m := by
  rcases attachCookieOption_eq hsc m cc with ⟨-, h⟩ | ⟨-, h⟩
  · rw [h]
  · rw [h]
    rfl

theorem harmless_attach_iff (hpack : m.pack = .ok buf) (hfits : buf.length ≤ maxBytes) :
    Harmless maxBytes (attachCookieOption m cc sc) ↔
      buf.length + cookieGrowth m.edns ≤ min maxBytes 0xffff ∨ Repeats m ∨ IsTruncatedReply m := by
  rcases attachCookieOption_eq hsc m cc with ⟨hrepeats, h⟩ | ⟨hrepeats, h⟩
  · rw [h]
    exact iff_of_true (.inl ⟨buf, hpack, hfits⟩) (.inr (.inl hrepeats))
  · obtain ⟨out, hparts⟩ := Message.pack_edns_iff hpack
    obtain ⟨-, hbuf⟩ := (hparts m.edns buf).mp hpack
    have hlength : (buf.length : Int) = 12 + (m.questionBytes ++ out).length + ednsSize m.edns := by
      rw [hbuf]
      simp only [length_append, Message.length_header, length_ednsBytes]
      push_cast
      rfl
    have hsize := size_withCookie hsc m.edns cc
    rw [h]
    simp only [hrepeats, false_or]
    apply or_congr_left
    constructor
    · grind [Message.length_header, length_ednsBytes, ednsSize_some]
    · intro hle
      refine ⟨_, (hparts _ _).mpr ⟨?_, rfl⟩, ?_⟩
      · rw [ednsSize_some]
        omega
      · grind [Message.length_header, length_ednsBytes, ednsSize_some]

end

variable {hmac : Bytes → Bytes → Decoder.FixedBytes 32} {mw : CookiesMW} {srv : Server} {pool : MemorySecretPool}
  {network : String} {addr : Addr} {now : Int} {rest : List Message}

theorem harmless_gated (q : Message) (maxBytes : Int) (m : Message) : Harmless maxBytes (gated q maxBytes m) := by
  grind [isTruncatedReply_truncate, Harmless, gated]

theorem harmless_attach_gated_iff (hsc : sc.length = 16) :
    Harmless maxBytes (attachCookieOption (gated q maxBytes m) cc sc) ↔ LeavesRoom maxBytes m := by
  grind [harmless_attach_iff, isTruncatedReply_attach, isTruncatedReply_truncate, Harmless, gated, LeavesRoom]

/-- **The gate.** The first response to a query without a server cookie is small or sends the client to TCP exactly if
the query has no client cookie, or the response leaves room for the fresh one. -/
theorem serveDNS_harmless_iff (hmac : Bytes → Bytes → Decoder.FixedBytes 32) (mw : CookiesMW) (srv : Server)
    (pool : MemorySecretPool) (network : String) (addr : Addr) (now : Int) (q m : Message) (rest : List Message)
    (hlarge : mw.requireForLarge = true) (hnetwork : isUDPNetwork network = true) (hcookie : NoServerCookie q) :
    ∃ out, mw.serveDNS hmac srv pool network addr now q (m :: rest) = out :: rest ∧
      (Harmless mw.largeRespMaxSize out ↔ extractCookies q = none ∨ LeavesRoom mw.largeRespMaxSize m) := by
  have hgate : (mw.requireForLarge && isUDPNetwork network) = true := by rw [hlarge, hnetwork]; rfl
  unfold CookiesMW.serveDNS
  cases hcookies : extractCookies q with
  | none =>
    -- nothing is attached behind the gate
    rw [if_pos hgate]
    exact ⟨_, rfl, iff_of_true (harmless_gated q _ m) (.inl rfl)⟩
  | some cookies =>
    -- the gate comes before the writer that attaches the fresh cookie
    obtain ⟨cc, sc⟩ := cookies
    have hshort : ¬sc.length ≥ 8 := Nat.not_le.mpr (hcookie _ hcookies)
    dsimp only
    rw [if_neg hshort, if_pos hgate]
    have hfresh : (Server.make hmac pool cc addr now).length = 16 := length_mintCookie
    refine ⟨_, rfl, (harmless_attach_gated_iff hfresh).trans ?_⟩
    simp

end Gate

/-! ### A response that fits until the cookie is attached -/

def clientCookieQuery : Message :=
  { Udp.rootQuery with edns := some ⟨1232, 0, 0, false, [newClientCookie sampleClientCookie]⟩ }

def responseOf1200 : Message :=
  { Udp.paddedResponse with edns := some ⟨1232, 0, 0, false, [⟨12, List.replicate 1168 0⟩]⟩ }

/-- The response is let through, and has 1228 bytes with the cookie, where 1200 are allowed. -/
theorem serveDNS_exceeds :
    responseOf1200.pack.toOption.map List.length = some 1200 ∧
    ((newCookies none (some 1200)).serveDNS sampleHMAC (newServer none none) ⟨sampleSecret.val, []⟩ "udp" sampleAddr
      (600 * second) clientCookieQuery [responseOf1200]).map
        (fun out => (out.pack.toOption.map List.length, out.flags.truncated)) = [(some 1228, false)] := by
  constructor
  · decide +kernel
  · decide +kernel

theorem serveDNS_harmless_padded : NoServerCookie clientCookieQuery ∧
    ∃ out, (newCookies none none).serveDNS sampleHMAC (newServer none none) ⟨sampleSecret.val, []⟩ "udp" sampleAddr
      (600 * second) clientCookieQuery [Udp.paddedResponse] = [out] ∧ Harmless 1232 out := by
  have hextract : extractCookies clientCookieQuery = some (sampleClientCookie, []) := by decide +kernel
  have hcookie : NoServerCookie clientCookieQuery := by
    intro cookies hcookies
    cases hextract.symm.trans hcookies
    decide
  obtain ⟨out, hserve, hharmless⟩ := serveDNS_harmless_iff sampleHMAC (newCookies none none) (newServer none none)
    ⟨sampleSecret.val, []⟩ "udp" sampleAddr (600 * second) clientCookieQuery Udp.paddedResponse [] rfl (by decide) hcookie
  refine ⟨hcookie, out, hserve, hharmless.mpr (.inr ?_)⟩
  intro buf hpack _
  have hlength : Udp.paddedResponse.pack.toOption.map List.length = some 632 := by decide +kernel
  rw [hpack] at hlength
  have hbuf : buf.length = 632 := Option.some.inj hlength
  refine .inl ?_
  rw [hbuf]
  decide +kernel

end Acidns.Cookies
