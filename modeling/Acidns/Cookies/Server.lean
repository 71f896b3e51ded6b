import Acidns.Tsig.Basic

/-!
# Server cookies

The server's half of `cookies/cookies.go`: the pool of secrets, the minting of cookies and their validation.
A server cookie holds its version, three reserved bytes, the time and a MAC over all of this, the client
cookie and the client's address. The validator takes the time from the cookie, mints the cookie again
and compares the MACs alone.

HMAC-SHA256 is a parameter.
-/

namespace Acidns

open List

open Decoder (FixedBytes)
open Octets (bigEndian ofBigEndian readAt)

/-- `netip.Addr`. -/
inductive Addr where
  | zero
  | v4 (ip : FixedBytes 4)
  | v6 (ip : FixedBytes 16) (zone : String)
  deriving DecidableEq

namespace Addr

def mapped : Bytes := List.replicate 10 0 ++ [0xff, 0xff]

def unmap : Addr → Addr
  | .v6 ip zone =>
    if ip.val.take 12 = mapped then .v4 ⟨ip.val.drop 12, by rw [length_drop, ip.property]⟩ else .v6 ip zone
  | a => a

def bytes : Addr → Bytes
  | .zero => []
  | .v4 ip => ip.val
  | .v6 ip _ => ip.val

end Addr

namespace Cookies

abbrev ClientCookie := FixedBytes 8

inductive ErrorKind where
  | missing
  | tooShort
  | malformed
  | expired
  | mismatch
  | retryExhausted
  | invalid
  deriving DecidableEq

structure CookieError where
  kind : ErrorKind
  text : String
  deriving DecidableEq

def errCookieMalformed (text : String) : CookieError := ⟨.malformed, s!"cookies: server cookie malformed: {text}"⟩

def errCookieExpired : CookieError := ⟨.expired, "cookies: server cookie outside age window"⟩

def errCookieMismatch : CookieError := ⟨.mismatch, "cookies: server cookie HMAC mismatch"⟩

/-! ### The pool of secrets -/

abbrev Secret := FixedBytes 32

/-- The current secret and the one before it. -/
structure MemorySecretPool where
  current : Bytes
  previous : Bytes

namespace MemorySecretPool

def all (p : MemorySecretPool) : List Bytes :=
  (if 0 < p.current.length then [p.current] else []) ++ if 0 < p.previous.length then [p.previous] else []

/-- `Rotate`, with the secret that is drawn. Without one the pool stays as it is. -/
def rotate (p : MemorySecretPool) : Option Secret → MemorySecretPool
  | none => p
  | some fresh => ⟨fresh.val, p.current⟩

end MemorySecretPool

/-- The secret drawn by `NewSecretPool`, and those drawn by later calls of `Rotate`, the last one first. -/
structure PoolHistory where
  first : Secret
  draws : List (Option Secret)

namespace PoolHistory

def pool (h : PoolHistory) : MemorySecretPool :=
  h.draws.foldr (fun draw p => p.rotate draw) (MemorySecretPool.rotate ⟨[], []⟩ (some h.first))

def secrets (h : PoolHistory) : List Secret := h.draws.filterMap id ++ [h.first]

def live (h : PoolHistory) : List Secret := h.secrets.take 2

end PoolHistory

/-! ### Minting and validating -/

structure Server where
  maxAge : Duration
  maxFutureSkew : Duration

def defaultMaxFutureSkew : Duration := 5 * 60 * second

def positiveOr (d : Option Duration) (default : Duration) : Duration := (d.filter (0 < ·)).getD default

def newServer (maxAge maxFutureSkew : Option Duration) : Server :=
  ⟨positiveOr maxAge (60 * 60 * second), positiveOr maxFutureSkew defaultMaxFutureSkew⟩

def cookieHead (ts : Int) : Bytes := [1, 0, 0, 0] ++ bigEndian 4 (ts / second % 2 ^ 32).toNat

def constantTimeCompare (x y : Bytes) : Nat := if x = y then 1 else 0

section HMAC

variable (hmac : Bytes → Bytes → FixedBytes 32)

/-- Version, time and hash (RFC 9018). -/
def mintCookie (secret : Bytes) (clientCookie : ClientCookie) (addr : Addr) (ts : Int) : Bytes :=
  cookieHead ts ++ (hmac secret (clientCookie.val ++ cookieHead ts ++ addr.bytes)).val.take 8

namespace Server

def make (pool : MemorySecretPool) (clientCookie : ClientCookie) (clientAddr : Addr) (ts : Int) : Bytes :=
  mintCookie hmac pool.current clientCookie clientAddr.unmap ts

/-- Every secret of the pool is tried. -/
def validate (s : Server) (pool : MemorySecretPool) (serverCookie : Bytes) (clientCookie : ClientCookie)
    (clientAddr : Addr) (now : Int) : Except CookieError Int :=
  if serverCookie.length ≠ 16 then .error (errCookieMalformed s!"length {serverCookie.length}")
  else if serverCookie.headD 0 ≠ 1 then .error (errCookieMalformed s!"version {(serverCookie.headD 0).toNat}")
  else
    let ts := readAt 4 serverCookie 4 * second
    let addr := clientAddr.unmap
    -- every secret is tried, whichever matches
    let ok := pool.all.foldl (fun ok sec =>
      ok ||| constantTimeCompare ((mintCookie hmac sec clientCookie addr ts).drop 8) (serverCookie.drop 8)) 0
    if ok ≠ 1 then .error errCookieMismatch
    else if Tsig.timeSub now ts > s.maxAge then .error errCookieExpired
    else if Tsig.timeSub ts now > s.maxFutureSkew then .error errCookieExpired
    else .ok ts

/-- `Make` returned the cookie for the client under the current or the previous secret, at an acceptable time. -/
def Minted (s : Server) (h : PoolHistory) (serverCookie : Bytes) (clientCookie : ClientCookie) (clientAddr : Addr)
    (now : Int) : Prop :=
  ∃ (pool : MemorySecretPool) (addr : Addr) (ts : Int), pool.current ∈ h.live.map (·.val) ∧
    addr.unmap = clientAddr.unmap ∧ 0 ≤ ts ∧ ts < 2 ^ 32 ∧
    serverCookie = make hmac pool clientCookie addr (ts * second) ∧
    Tsig.timeSub now (ts * second) ≤ s.maxAge ∧ Tsig.timeSub (ts * second) now ≤ s.maxFutureSkew

end Server

end HMAC

def ReservedClear (serverCookie : Bytes) : Prop := (serverCookie.drop 1).take 3 = [0, 0, 0]

def clearReserved (serverCookie : Bytes) : Bytes := serverCookie.take 1 ++ [0, 0, 0] ++ serverCookie.drop 4

/-! ### The secrets that are tried -/

theorem MemorySecretPool.all_rotate {p : MemorySecretPool} (hcurrent : 0 < p.current.length) (fresh : Secret) :
    (p.rotate (some fresh)).all = fresh.val :: p.all.take 1 := by
  grind [all, rotate]

theorem PoolHistory.all_pool (h : PoolHistory) :
    0 < h.pool.current.length ∧ h.pool.all = h.live.map (·.val) := by
  obtain ⟨first, draws⟩ := h
  have hpos : ∀ secret : Secret, 0 < secret.val.length := fun secret => by rw [secret.property]; decide
  induction draws with
  | nil =>
    refine ⟨hpos first, ?_⟩
    simp [PoolHistory.pool, MemorySecretPool.rotate, MemorySecretPool.all, PoolHistory.live, PoolHistory.secrets, hpos]
  | cons draw draws ih =>
    obtain ⟨hcurrent, hall⟩ := ih
    cases draw with
    | none => exact ⟨hcurrent, hall⟩
    | some fresh =>
      refine ⟨hpos fresh, ?_⟩
      change ((PoolHistory.pool ⟨first, draws⟩).rotate (some fresh)).all = _
      rw [MemorySecretPool.all_rotate hcurrent, hall, ← map_take, PoolHistory.live, take_take]
      rfl

theorem foldl_constantTimeCompare {ι : Type} (f : ι → Bytes) (mac : Bytes) (xs : List ι) :
    xs.foldl (fun ok x => ok ||| constantTimeCompare (f x) mac) 0 = 1 ↔ ∃ x ∈ xs, f x = mac := by
  have hbit : ∀ ok ≤ 1, (xs.foldl (fun ok x => ok ||| constantTimeCompare (f x) mac) ok = 1 ↔
      ok = 1 ∨ ∃ x ∈ xs, f x = mac) := by
    induction xs with
    | nil => simp
    | cons x xs ih =>
      intro ok hok
      have hor : ok ||| constantTimeCompare (f x) mac ≤ 1 ∧
          (ok ||| constantTimeCompare (f x) mac = 1 ↔ ok = 1 ∨ f x = mac) := by
        rw [constantTimeCompare]
        rcases Nat.le_one_iff_eq_zero_or_eq_one.mp hok with rfl | rfl
        · split <;> simp [*]
        · split <;> simp [*]
      rw [foldl_cons, ih _ hor.1, hor.2, exists_mem_cons_iff, or_assoc]
  rw [hbit 0 (by decide)]
  simp

/-! ### The layout of a cookie -/

section Layout

variable {hmac : Bytes → Bytes → FixedBytes 32} {secret serverCookie : Bytes} {clientCookie : ClientCookie} {addr : Addr}
  {ts : Int}

theorem length_cookieHead (ts : Int) : (cookieHead ts).length = 8 := by simp [cookieHead]

theorem drop_mintCookie : (mintCookie hmac secret clientCookie addr ts).drop 8 =
    (hmac secret (clientCookie.val ++ cookieHead ts ++ addr.bytes)).val.take 8 :=
  drop_left' (length_cookieHead ts)

theorem length_mintCookie : (mintCookie hmac secret clientCookie addr ts).length = 16 := by
  grind [mintCookie, length_cookieHead]

theorem reservedClear_mintCookie : ReservedClear (mintCookie hmac secret clientCookie addr ts) := rfl

theorem readAt_mintCookie (hts : 0 ≤ ts) (hmax : ts < 2 ^ 32) :
    (readAt 4 (mintCookie hmac secret clientCookie addr (ts * second)) 4 : Int) = ts := by
  have hsecond : second ≠ 0 := by decide
  have htime : (ts * second / second % 2 ^ 32).toNat = ts.toNat := by
    rw [Int.mul_ediv_cancel _ hsecond, Int.emod_eq_of_lt hts hmax]
  have hat : Octets.At (mintCookie hmac secret clientCookie addr (ts * second)) 4 (bigEndian 4 ts.toNat) := by
    rw [mintCookie, cookieHead, htime, append_assoc]
    exact Octets.at_length_append [1, 0, 0, 0] _ _
  rw [hat.readAt, Nat.mod_eq_of_lt (by omega), Int.toNat_of_nonneg hts]

theorem clearReserved_eq (hlength : serverCookie.length = 16) (hversion : serverCookie.headD 0 = 1) :
    clearReserved serverCookie = cookieHead (readAt 4 serverCookie 4 * second) ++ serverCookie.drop 8 := by
  have hsecond : second ≠ 0 := by decide
  have hlt : (readAt 4 serverCookie 4 : Int) < 2 ^ 32 := by exact_mod_cast Octets.readAt_lt 4 serverCookie 4
  have hone : serverCookie.take 1 = [1] := by
    cases serverCookie with
    | nil => cases hlength
    | cons b rest =>
      obtain rfl : b = 1 := hversion
      rfl
  have htail : serverCookie.drop 4 = bigEndian 4 (readAt 4 serverCookie 4) ++ serverCookie.drop 8 := by
    grind [drop_drop, Octets.bigEndian_readAt, take_append_drop]
  rw [clearReserved, hone, htail, cookieHead, Int.mul_ediv_cancel _ hsecond,
    Int.emod_eq_of_lt (Int.natCast_nonneg _) hlt, Int.toNat_natCast, append_assoc, append_assoc]
  rfl

theorem length_clearReserved (h : (clearReserved serverCookie).length = 16) : serverCookie.length = 16 := by
  grind [clearReserved]

theorem drop_clearReserved {n : Nat} (hn : 4 ≤ n) (hlength : serverCookie.length = 16) :
    (clearReserved serverCookie).drop n = serverCookie.drop n := by
  have hfront : (serverCookie.take 1 ++ [0, 0, 0]).length = 4 := by
    rw [length_append, length_take, hlength]
    rfl
  obtain ⟨k, rfl⟩ := Nat.exists_eq_add_of_le hn
  rw [clearReserved, ← hfront, drop_length_add_append, drop_drop]

theorem clearReserved_of_clear (h : ReservedClear serverCookie) : clearReserved serverCookie = serverCookie := by
  grind [List.drop_drop, List.take_append_drop, clearReserved, ReservedClear]

end Layout

/-! ### What is accepted -/

section Validate

variable {hmac : Bytes → Bytes → FixedBytes 32} {s : Server} {h : PoolHistory} {serverCookie : Bytes}
  {clientCookie : ClientCookie} {clientAddr : Addr} {now ts : Int}

namespace Server

theorem validate_eq_ok {pool : MemorySecretPool} :
    s.validate hmac pool serverCookie clientCookie clientAddr now = .ok ts ↔
      serverCookie.length = 16 ∧ serverCookie.headD 0 = 1 ∧ ts = readAt 4 serverCookie 4 * second ∧
        (∃ sec ∈ pool.all, (mintCookie hmac sec clientCookie clientAddr.unmap ts).drop 8 = serverCookie.drop 8) ∧
        Tsig.timeSub now ts ≤ s.maxAge ∧ Tsig.timeSub ts now ≤ s.maxFutureSkew := by
  rw [validate]
  constructor
  · intro hok
    split at hok
    · cases hok
    rename_i hlength
    split at hok
    · cases hok
    rename_i hversion
    dsimp only at hok
    split at hok
    · cases hok
    rename_i hmatch
    split at hok
    · cases hok
    rename_i hage
    split at hok
    · cases hok
    rename_i hskew
    cases hok
    exact ⟨not_not.mp hlength, not_not.mp hversion, rfl,
      (foldl_constantTimeCompare _ _ _).mp (not_not.mp hmatch), Int.not_lt.mp hage, Int.not_lt.mp hskew⟩
  · rintro ⟨hlength, hversion, rfl, hmatch, hage, hskew⟩
    rw [if_neg (not_not.mpr hlength), if_neg (not_not.mpr hversion)]
    rw [if_neg (not_not.mpr ((foldl_constantTimeCompare _ _ _).mpr hmatch)), if_neg (Int.not_lt.mpr hage),
      if_neg (Int.not_lt.mpr hskew)]

theorem Minted.reservedClear (hminted : s.Minted hmac h serverCookie clientCookie clientAddr now) :
    ReservedClear serverCookie := by
  obtain ⟨pool, addr, ts, -, -, -, -, rfl, -, -⟩ := hminted
  exact reservedClear_mintCookie

theorem validates_iff_minted_clearReserved :
    (∃ ts, s.validate hmac h.pool serverCookie clientCookie clientAddr now = .ok ts) ↔
      s.Minted hmac h (clearReserved serverCookie) clientCookie clientAddr now := by
  have hall := h.all_pool.2
  constructor
  · rintro ⟨ts, hok⟩
    obtain ⟨hlength, hversion, rfl, ⟨sec, hsec, hmac⟩, hage, hskew⟩ := validate_eq_ok.mp hok
    have hlt : (readAt 4 serverCookie 4 : Int) < 2 ^ 32 := by exact_mod_cast Octets.readAt_lt 4 serverCookie 4
    refine ⟨⟨sec, []⟩, clientAddr, readAt 4 serverCookie 4, hall ▸ hsec, rfl, Int.natCast_nonneg _, hlt, ?_, hage, hskew⟩
    rw [clearReserved_eq hlength hversion, ← hmac, drop_mintCookie]
    rfl
  · rintro ⟨pool, addr, ts, hlive, haddr, hts, hmax, hcookie, hage, hskew⟩
    rw [make, haddr] at hcookie
    have hlength : serverCookie.length = 16 := length_clearReserved (by rw [hcookie, length_mintCookie])
    have hversion : serverCookie.headD 0 = 1 := by
      cases serverCookie with
      | nil => cases hlength
      | cons b rest => exact (List.cons.inj hcookie).1
    have htime : (readAt 4 serverCookie 4 : Int) = ts := by grind [readAt_mintCookie, readAt, drop_clearReserved]
    refine ⟨ts * second, validate_eq_ok.mpr ⟨hlength, hversion, by rw [htime], ⟨pool.current, ?_, ?_⟩, hage, hskew⟩⟩
    · rw [hall]
      exact hlive
    · rw [← hcookie, drop_clearReserved (by decide) hlength]

/-- **Which cookies are accepted.** With zero reserved bytes the validator decides whether the cookie was minted; with
others it decides wrongly exactly if the cookie differs from a minted one in nothing else. -/
theorem validates_iff_minted_iff (hmac : Bytes → Bytes → FixedBytes 32) (s : Server) (h : PoolHistory)
    (serverCookie : Bytes) (clientCookie : ClientCookie) (clientAddr : Addr) (now : Int) :
    ((∃ ts, s.validate hmac h.pool serverCookie clientCookie clientAddr now = .ok ts) ↔
      s.Minted hmac h serverCookie clientCookie clientAddr now) ↔
    (ReservedClear serverCookie ∨ ¬s.Minted hmac h (clearReserved serverCookie) clientCookie clientAddr now) := by
  rw [validates_iff_minted_clearReserved]
  by_cases hclear : ReservedClear serverCookie
  · rw [clearReserved_of_clear hclear]
    exact iff_of_true Iff.rfl (.inl hclear)
  · -- the reserved bytes of a minted cookie are zero
    have hforged : ¬s.Minted hmac h serverCookie clientCookie clientAddr now := fun hminted =>
      hclear hminted.reservedClear
    simp [hclear, hforged]

end Server

end Validate

/-! ### A cookie with other reserved bytes -/

def sampleSecret : Secret := ⟨(List.range 32).map UInt8.ofNat, rfl⟩

def sampleClientCookie : ClientCookie := ⟨[1, 2, 3, 4, 5, 6, 7, 8], rfl⟩

def sampleAddr : Addr := .v4 ⟨bigEndian 4 0xc0000201, Octets.length_bigEndian _ _⟩

def sampleHMAC (secret input : Bytes) : FixedBytes 32 :=
  if secret = sampleSecret.val ∧
      input = sampleClientCookie.val ++ cookieHead (600 * second) ++ sampleAddr.bytes then
    ⟨bigEndian 32 0xa6d5c46e5ed824a61b33235de52bfd3034cf6f79662e34b3c3a1c0ae77c65642, Octets.length_bigEndian _ _⟩
  else ⟨bigEndian 32 0, Octets.length_bigEndian _ _⟩

def alteredCookie : Bytes :=
  (Server.make sampleHMAC ⟨sampleSecret.val, []⟩ sampleClientCookie sampleAddr (600 * second)).set 1 0xff

/-- The validator accepts a cookie that was never minted. -/
theorem validates_altered :
    (newServer none none).validate sampleHMAC (PoolHistory.pool ⟨sampleSecret, []⟩) alteredCookie sampleClientCookie
      sampleAddr (600 * second) = .ok (600 * second) ∧
    ¬(newServer none none).Minted sampleHMAC ⟨sampleSecret, []⟩ alteredCookie sampleClientCookie sampleAddr
      (600 * second) := by
  refine ⟨by decide +kernel, fun hminted => ?_⟩
  have hclear : ReservedClear alteredCookie := hminted.reservedClear
  exact absurd hclear (by unfold ReservedClear; decide +kernel)

end Cookies

end Acidns
