import Acidns.Lib.Replay
import Acidns.Lib.Table
import Acidns.Tsig.Basic

/-!
# Replayed signatures

`tsig/replay.go`: a cache of the signatures that have been seen, and the verification that refuses a
message whose signature is in it. The cache remembers when it first saw a signature and forgets it
once that is more than its window ago; it looks for signatures to forget only now and then.

A message is acceptable from one fudge before its time of signing to one fudge behind, so a signature
has to be remembered for two fudges.
-/

namespace Acidns.Tsig

/-- The zero `time.Time`. -/
def zeroTime : Int := -62135596800 * second

/-- A digit as `encoding/hex` writes it. -/
def hexDigit (n : Nat) : UInt8 := UInt8.ofNat (if n < 10 then 0x30 + n else 0x61 + (n - 10))

/-- The key of the cache has the MAC in hexadecimal. -/
def hexEncode (bs : Bytes) : Bytes := bs.flatMap fun b => [hexDigit (b.toNat / 16), hexDigit (b.toNat % 16)]

/-- `strconv.AppendInt` in base ten, of a number that is not negative. -/
def decimal (n : Nat) : Bytes := (Nat.toDigits 10 n).map fun c => UInt8.ofNat c.toNat

/-- The key of a signature in the cache. The time of signing comes from the wire, so it is not
negative. -/
def replayKey (keyName : Name) (signedAt : Int) (mac : Bytes) : Bytes :=
  keyName.appendWire [] ++ [0x7c] ++ decimal (signedAt / second).toNat ++ [0x7c] ++ hexEncode mac

/-- The signatures seen, each with the time of its first sight. -/
structure MemoryReplayCache where
  size : Int
  window : Duration
  seenAt : Table Bytes Int
  lastSweep : Int

def defaultReplayWindow : Duration := 5 * 60 * second

def defaultReplayCacheSize : Int := 16384

/-- An empty cache; the options have defaults. -/
def newMemoryReplayCache (size : Option Int) (window : Option Duration) : MemoryReplayCache :=
  ⟨size.getD defaultReplayCacheSize, window.getD defaultReplayWindow, ∅, zeroTime⟩

namespace MemoryReplayCache

/-- A sweep is due: the cache is half full, or a quarter of the window has passed. -/
def shouldSweepLocked (c : MemoryReplayCache) (now : Int) : Bool :=
  if c.size > 0 ∧ c.size.tdiv 2 ≤ c.seenAt.size then true
  else if c.window ≤ 0 then false
  else if c.lastSweep = zeroTime then true
  else c.window.tdiv 4 ≤ timeSub now c.lastSweep

/-- Drops what is older than the window. -/
def evictExpiredLocked (c : MemoryReplayCache) (now : Int) : MemoryReplayCache :=
  { c with seenAt := Table.filter (fun _ t => ¬t < now - c.window) c.seenAt }

/-- Drops the oldest signature. -/
def evictOldestLocked (c : MemoryReplayCache) : MemoryReplayCache :=
  match Table.leastKey id c.seenAt.entries with
  | none => c
  | some k => { c with seenAt := c.seenAt.erase k }

/-- A sweep, which is remembered. -/
def sweep (c : MemoryReplayCache) (now : Int) : MemoryReplayCache :=
  { c.evictExpiredLocked now with lastSweep := now }

/-- The cache as a call finds it. -/
def swept (c : MemoryReplayCache) (now : Int) : MemoryReplayCache :=
  if c.shouldSweepLocked now then c.sweep now else c

/-- There is a bound, and it is reached. -/
def Full (c : MemoryReplayCache) : Prop := c.size > 0 ∧ c.size ≤ c.seenAt.size

instance (c : MemoryReplayCache) : Decidable c.Full := inferInstanceAs (Decidable (_ ∧ _))

/-- Room for one more: by a sweep, otherwise at the cost of the oldest. -/
def makeRoom (c : MemoryReplayCache) (now : Int) : MemoryReplayCache :=
  if c.Full then if (c.sweep now).Full then (c.sweep now).evictOldestLocked else c.sweep now else c

/-- `Seen`: whether the signature is known; if not, it is from now on. -/
def seen (c : MemoryReplayCache) (keyName : Name) (signedAt : Int) (mac : Bytes) (now : Int) :
    Bool × MemoryReplayCache :=
  let k := replayKey keyName signedAt mac
  let c := c.swept now
  if k ∈ c.seenAt then (true, c)
  else
    let c := c.makeRoom now
    (false, { c with seenAt := c.seenAt.insert k now })

end MemoryReplayCache

section HMAC

variable (hmac : Algorithm → Bytes → Bytes → Bytes)

/-- `VerifyWithReplay`; the cache reads the clock that gave `now`. -/
def verifyWithReplay (msg : Bytes) (key : Key) (cache : Option MemoryReplayCache) (now fudge : Int) :
    Except TsigError (Bytes × Bytes × Int) × Option MemoryReplayCache :=
  match verifyMAC hmac msg key now fudge with
  | .error e => (.error e, cache)
  | .ok (body, mac, signed) =>
    match cache with
    | none => (.ok (body, mac, signed), none)
    | some c =>
      match c.seen key.name signed mac now with
      | (true, c) => (.error ⟨.replayed, "tsig: replay detected"⟩, some c)
      | (false, c) => (.ok (body, mac, signed), some c)

/-! ### Runs -/

/-- A message that is verified, and when. -/
structure Call where
  msg : Bytes
  now : Int

variable (key : Key) (fudge : Int)

/-- How often a message is accepted in a run. -/
def acceptances (msg : Bytes) : Option MemoryReplayCache → List Call → Nat
  | _, [] => 0
  | cache, call :: calls =>
    let (result, cache') := verifyWithReplay hmac call.msg key cache call.now fudge
    (if call.msg = msg ∧ result.isOk then 1 else 0) + acceptances msg cache' calls

/-- No call finds the cache full. -/
def NeverFull : Option MemoryReplayCache → List Call → Prop
  | _, [] => True
  | cache, call :: calls =>
    (∀ c ∈ cache, ¬(c.swept call.now).Full) ∧
      NeverFull (verifyWithReplay hmac call.msg key cache call.now fudge).2 calls

end HMAC

/-! ### What the cache remembers -/

namespace MemoryReplayCache

variable {c : MemoryReplayCache} {k mac : Bytes} {now t signed : Int} {name : Name}

theorem window_swept : (c.swept now).window = c.window := by
  unfold swept
  split <;> rfl

theorem window_makeRoom : (c.makeRoom now).window = c.window := by
  unfold makeRoom
  split
  · split
    · unfold evictOldestLocked
      split <;> rfl
    · rfl
  · rfl

theorem window_seen : (c.seen name signed mac now).2.window = c.window := by
  unfold seen
  dsimp only
  split
  · exact window_swept
  · exact window_makeRoom.trans window_swept

theorem lookup_swept (h : c.seenAt.lookup k = some t) (hnow : now ≤ t + c.window) :
    (c.swept now).seenAt.lookup k = some t := by
  unfold swept
  split
  · have hkept : ¬t < now - c.window := by omega
    exact Table.lookup_filter_eq_some.mpr ⟨h, decide_eq_true hkept⟩
  · exact h

theorem lookup_seen (hroom : ¬(c.swept now).Full) (h : (c.swept now).seenAt.lookup k = some t) :
    (c.seen name signed mac now).2.seenAt.lookup k = some t := by
  grind [seen, Table.mem_of_lookup, makeRoom, AList.lookup_insert_ne]

theorem seen_eq_true (h : (c.swept now).seenAt.lookup (replayKey name signed mac) = some t) :
    (c.seen name signed mac now).1 = true := by
  unfold seen
  rw [if_pos (Table.mem_of_lookup h)]

theorem lookup_of_seen_eq_false (h : (c.seen name signed mac now).1 = false) :
    (c.seen name signed mac now).2.seenAt.lookup (replayKey name signed mac) = some now := by
  grind [seen, AList.lookup_insert]

theorem not_full_of_empty (h : c.seenAt = ∅) : ¬c.Full := by
  simp [Full, Table.size, *]

theorem seen_of_empty (h : (c.swept now).seenAt = ∅) : c.seen name signed mac now =
    (false, { c.swept now with seenAt := AList.insert (replayKey name signed mac) now ∅ }) := by
  grind [seen, AList.notMem_empty, makeRoom, not_full_of_empty]

theorem swept_of_expired (hdue : c.shouldSweepLocked now = true) (hc : c.seenAt = AList.insert k t ∅)
    (hold : t < now - c.window) : (c.swept now).seenAt = ∅ := by
  grind [swept, sweep, Table.filter_insert_empty, evictExpiredLocked]

end MemoryReplayCache

open MemoryReplayCache

/-! ### Accepting a message once -/

section Once

variable {hmac : Algorithm → Bytes → Bytes → Bytes} {key : Key} {fudge now t : Int} {msg body : Bytes}
  {tsig : ParsedTSIG} {c : MemoryReplayCache} {calls : List Call} {cache : Option MemoryReplayCache}

theorem inWindow_iff {signed : Int} (hmax : fudge < 2 ^ 63 - 1) :
    InWindow now signed fudge ↔ signed - fudge ≤ now ∧ now ≤ signed + fudge := by
  grind [InWindow, timeSub]

theorem Authentic.tsig_eq {priorMAC : Option Bytes} {timersOnly : Bool} {body' : Bytes} {tsig' : ParsedTSIG}
    (h : Authentic hmac msg key priorMAC timersOnly body tsig)
    (h' : Authentic hmac msg key priorMAC timersOnly body' tsig') : body = body' ∧ tsig = tsig' := by
  grind [strip]

theorem verifyWithReplay_of_authentic (hauthentic : Authentic hmac msg key none false body tsig)
    (hwindow : InWindow now tsig.signed fudge) :
    (verifyWithReplay hmac msg key (some c) now fudge).1.isOk = !(c.seen key.name tsig.signed tsig.mac now).1 ∧
      (verifyWithReplay hmac msg key (some c) now fudge).2 = some (c.seen key.name tsig.signed tsig.mac now).2 := by
  have hverify : verifyMAC hmac msg key now fudge = .ok (body, tsig.mac, tsig.signed) :=
    verifyWithPrefix_eq_ok.mpr ⟨tsig, hauthentic, rfl, rfl, hwindow⟩
  rcases hseen : c.seen key.name tsig.signed tsig.mac now with ⟨known | known, c'⟩
  · simp [verifyWithReplay, hverify, hseen, Except.isOk, Except.toBool]
  · simp [verifyWithReplay, hverify, hseen, Except.isOk, Except.toBool]

theorem verifyWithReplay_cases (msg : Bytes) (now : Int) :
    (∃ e, verifyWithReplay hmac msg key (some c) now fudge = (.error e, some c)) ∨
    (∃ body tsig, Authentic hmac msg key none false body tsig ∧ InWindow now tsig.signed fudge ∧
      (verifyWithReplay hmac msg key (some c) now fudge).1.isOk =
        !(c.seen key.name tsig.signed tsig.mac now).1 ∧
      (verifyWithReplay hmac msg key (some c) now fudge).2 = some (c.seen key.name tsig.signed tsig.mac now).2) := by
  cases hverify : verifyMAC hmac msg key now fudge with
  | error e => exact .inl ⟨e, by rw [verifyWithReplay, hverify]⟩
  | ok accepted =>
    obtain ⟨body, mac, signed⟩ := accepted
    obtain ⟨tsig, hauthentic, rfl, rfl, hwindow⟩ := verifyWithPrefix_eq_ok.mp hverify
    exact .inr ⟨body, tsig, hauthentic, hwindow, verifyWithReplay_of_authentic hauthentic hwindow⟩

/-- The cache after the call. -/
def Call.next (hmac : Algorithm → Bytes → Bytes → Bytes) (key : Key) (fudge : Int) (call : Call) (c : MemoryReplayCache) :
    MemoryReplayCache :=
  (verifyWithReplay hmac call.msg key (some c) call.now fudge).2.getD c

theorem next_cases (call : Call) :
    (verifyWithReplay hmac call.msg key (some c) call.now fudge).2 = some (call.next hmac key fudge c) ∧
      (call.next hmac key fudge c = c ∨
        ∃ signed mac, call.next hmac key fudge c = (c.seen key.name signed mac call.now).2) := by
  grind [Call.next, verifyWithReplay]

theorem exists_of_isOk (h : (verifyWithReplay hmac msg key (some c) now fudge).1.isOk = true) :
    ∃ body tsig, Authentic hmac msg key none false body tsig ∧ InWindow now tsig.signed fudge ∧
      (c.seen key.name tsig.signed tsig.mac now).1 = false ∧
      (verifyWithReplay hmac msg key (some c) now fudge).2 = some (c.seen key.name tsig.signed tsig.mac now).2 := by
  rcases verifyWithReplay_cases msg now with ⟨e, hcall⟩ | ⟨body, tsig, hauthentic, hwindow, hok, hcall⟩
  · rw [hcall] at h
    cases h
  · rw [hok, Bool.not_eq_true'] at h
    exact ⟨body, tsig, hauthentic, hwindow, h, hcall⟩

/-! The cache as it watches for a message, whose signature has the key `k` in it. -/

variable {k : Bytes} (hk : ∀ {body tsig}, Authentic hmac msg key none false body tsig →
  replayKey key.name tsig.signed tsig.mac = k)

/-- The cache as a store that accepts the message once. -/
def watch (fudge : Int) : Watch MemoryReplayCache Call where
  now := Call.now
  Presents call := call.msg = msg ∧ ∃ body tsig, Authentic hmac msg key none false body tsig ∧
    InWindow call.now tsig.signed fudge
  Accepts call c := call.msg = msg ∧ (verifyWithReplay hmac call.msg key (some c) call.now fudge).1.isOk = true
  next := Call.next hmac key fudge
  since c := c.seenAt.lookup k
  window := window
  count c := acceptances hmac key fudge msg (some c)
  presents := by
    rintro call c ⟨rfl, hok⟩
    obtain ⟨body, tsig, hauthentic, hwindow, -⟩ := exists_of_isOk hok
    exact ⟨rfl, body, tsig, hauthentic, hwindow⟩
  notes := by
    rintro call c ⟨rfl, hok⟩
    obtain ⟨body, tsig, hauthentic, -, hnew, hcall⟩ := exists_of_isOk hok
    rw [Call.next, hcall, ← hk hauthentic]
    exact lookup_of_seen_eq_false hnew
  window_next call c := by
    rcases (next_cases call).2 with hnext | ⟨signed, mac, hnext⟩
    · rw [hnext]
    · rw [hnext, window_seen]
  count_nil _ := rfl
  count_accepted {call _ _} h := by simp [acceptances, (next_cases call).1, if_pos h, Nat.add_comm]
  count_refused {call _ _} h := by simp [acceptances, (next_cases call).1, if_neg h]

/-- **A signature is remembered for a window.** -/
theorem remembers_watch : (watch hk fudge).Remembers fun c => NeverFull hmac key fudge (some c) where
  safe_next {call c calls} h := by
    have hroom := h.2
    rwa [(next_cases call).1] at hroom
  refuses {call c t} hlookup hnow := by
    rintro ⟨rfl, hok⟩
    obtain ⟨body, tsig, hauthentic, -, hnew, -⟩ := exists_of_isOk hok
    have hlookup : c.seenAt.lookup (replayKey key.name tsig.signed tsig.mac) = some t := by
      rw [hk hauthentic]
      exact hlookup
    cases hnew.symm.trans (seen_eq_true (lookup_swept hlookup hnow))
  keeps {call c calls t} hroom hlookup hnow := by
    change (call.next hmac key fudge c).seenAt.lookup k = some t
    rcases (next_cases call).2 with hnext | ⟨signed, mac, hnext⟩
    · rw [hnext]
      exact hlookup
    · rw [hnext]
      exact lookup_seen (hroom.1 c rfl) (lookup_swept hlookup hnow)

omit hk in
theorem acceptances_le_one
    (hwindow : (∃ body tsig, Authentic hmac msg key none false body tsig) → 2 * fudge ≤ c.window ∧ fudge < 2 ^ 63 - 1)
    (hsorted : calls.Pairwise fun a b => a.now ≤ b.now) (hroom : NeverFull hmac key fudge (some c) calls) :
    acceptances hmac key fudge msg (some c) calls ≤ 1 := by
  obtain ⟨k, hk⟩ : ∃ k, ∀ {body tsig}, Authentic hmac msg key none false body tsig →
      replayKey key.name tsig.signed tsig.mac = k := by
    by_cases hany : ∃ body tsig, Authentic hmac msg key none false body tsig
    · obtain ⟨body, tsig, hauthentic⟩ := hany
      exact ⟨_, fun hauthentic' => by rw [(hauthentic'.tsig_eq hauthentic).2]⟩
    · exact ⟨[], fun hauthentic => absurd ⟨_, _, hauthentic⟩ hany⟩
  refine (remembers_watch hk).count_le_one (List.pairwise_of_forall fun a b => ?_) hsorted hroom
  rintro ⟨-, body, tsig, hauthentic, hfirst⟩ ⟨-, body', tsig', hauthentic', hlast⟩
  obtain ⟨-, rfl⟩ := hauthentic.tsig_eq hauthentic'
  obtain ⟨hfudge, hmax⟩ := hwindow ⟨body, tsig, hauthentic⟩
  rw [inWindow_iff hmax] at hfirst hlast
  change b.now ≤ a.now + c.window
  omega

theorem shouldSweepLocked_new {size window : Int} (hwindow : 0 < window) :
    (newMemoryReplayCache (some size) (some window)).shouldSweepLocked now = true := by
  simp [newMemoryReplayCache, MemoryReplayCache.shouldSweepLocked, *]

theorem shouldSweepLocked_of_window (hwindow : 0 < c.window) (hmax : c.window.tdiv 4 ≤ 2 ^ 63 - 1)
    (hnow : c.lastSweep + c.window.tdiv 4 ≤ now) : c.shouldSweepLocked now = true := by
  grind [MemoryReplayCache.shouldSweepLocked, timeSub]

theorem acceptances_twice (hauthentic : Authentic hmac msg key none false body tsig) (size : Int) {window : Int}
    (hfudge : fudge ≤ window) (hmax : window < 2 ^ 63) (hshort : window < 2 * fudge) (calls : List Call)
    (hcalls : calls = [⟨msg, tsig.signed - fudge⟩, ⟨msg, tsig.signed + fudge⟩]) :
    NeverFull hmac key fudge (some (newMemoryReplayCache (some size) (some window))) calls ∧
      acceptances hmac key fudge msg (some (newMemoryReplayCache (some size) (some window))) calls = 2 := by
  have hfirst : InWindow (tsig.signed - fudge) tsig.signed fudge := by
    change -fudge ≤ max (-2 ^ 63) (min (2 ^ 63 - 1) _) ∧ max (-2 ^ 63) (min (2 ^ 63 - 1) _) ≤ fudge
    omega
  have hsecond : InWindow (tsig.signed + fudge) tsig.signed fudge := by
    change -fudge ≤ max (-2 ^ 63) (min (2 ^ 63 - 1) _) ∧ max (-2 ^ 63) (min (2 ^ 63 - 1) _) ≤ fudge
    omega
  have hpos : 0 < window := by omega
  generalize hc : newMemoryReplayCache (some size) (some window) = c
  generalize hk : replayKey key.name tsig.signed tsig.mac = k
  -- the first call starts with an empty cache and leaves the signature in it
  have hsweep : c.swept (tsig.signed - fudge) = c.sweep (tsig.signed - fudge) := by
    rw [swept, ← hc, if_pos (shouldSweepLocked_new hpos)]
  have hempty : (c.swept (tsig.signed - fudge)).seenAt = ∅ := by
    rw [hsweep, ← hc]
    rfl
  obtain ⟨hok, hnext⟩ := @verifyWithReplay_of_authentic hmac key _ _ _ _ _ c hauthentic hfirst
  rw [seen_of_empty hempty, hsweep, hk] at hok hnext
  generalize hc' : { c.sweep (tsig.signed - fudge) with
    seenAt := AList.insert k (tsig.signed - fudge) ∅ : MemoryReplayCache } = c' at hok hnext
  have hwindow : c'.window = window := by
    rw [← hc', ← hc]
    rfl
  -- the second call finds the signature too old
  have hdue : c'.shouldSweepLocked (tsig.signed + fudge) = true := by
    have hlast : c'.lastSweep = tsig.signed - fudge := by
      rw [← hc']
      rfl
    have hquarter : window.tdiv 4 = window / 4 := Int.tdiv_eq_ediv_of_nonneg (Int.le_of_lt hpos)
    apply shouldSweepLocked_of_window
    · rw [hwindow]
      exact hpos
    · rw [hwindow, hquarter]
      omega
    · rw [hwindow, hquarter, hlast]
      omega
  have hempty' : (c'.swept (tsig.signed + fudge)).seenAt = ∅ := by
    apply swept_of_expired hdue (k := k) (t := tsig.signed - fudge)
    · rw [← hc']
    · rw [hwindow]
      omega
  obtain ⟨hok', hnext'⟩ := @verifyWithReplay_of_authentic hmac key _ _ _ _ _ c' hauthentic hsecond
  rw [seen_of_empty hempty'] at hok' hnext'
  subst hcalls
  constructor
  · refine ⟨?_, ?_⟩
    · rintro _ ⟨⟩
      exact not_full_of_empty hempty
    · rw [hnext]
      refine ⟨?_, trivial⟩
      rintro _ ⟨⟩
      exact not_full_of_empty hempty'
  · simp [acceptances, hok, hnext, hok']

/-- **Replayed messages.** With a window of at least the fudge, a clock that does not go back and a cache that does not
fill up, a message is always accepted at most once exactly if its signature is not valid or the window is at least two
fudges. -/
theorem acceptances_le_one_iff (hmac : Algorithm → Bytes → Bytes → Bytes) (key : Key) (msg : Bytes)
    (size window fudge : Int) (hfudge : fudge ≤ window) (hmax : window < 2 ^ 63) :
    (∀ calls : List Call, calls.Pairwise (fun a b => a.now ≤ b.now) →
      NeverFull hmac key fudge (some (newMemoryReplayCache (some size) (some window))) calls →
      acceptances hmac key fudge msg (some (newMemoryReplayCache (some size) (some window))) calls ≤ 1) ↔
    ((∃ body tsig, Authentic hmac msg key none false body tsig) → 2 * fudge ≤ window) := by
  constructor
  · rintro honce ⟨body, tsig, hauthentic⟩
    by_contra hshort
    obtain ⟨hroom, htwice⟩ := acceptances_twice hauthentic size hfudge hmax (Int.not_le.mp hshort) _ rfl
    have hsorted : [Call.mk msg (tsig.signed - fudge), ⟨msg, tsig.signed + fudge⟩].Pairwise
        fun a b => a.now ≤ b.now := by grind
    have := honce _ hsorted hroom
    omega
  · intro hwindow calls hsorted hroom
    apply acceptances_le_one _ hsorted hroom
    intro hauthentic
    have htwo := hwindow hauthentic
    exact ⟨htwo, by omega⟩

end Once

/-! ### An update sent twice -/

def updateKey : Key := keyK

def updateBody : Bytes := [0, 7, 0x28, 0, 0, 0, 0, 0, 0, 0, 0, 0]

def updateFudge : Int := 300 * second

def updateHMAC : Algorithm → Bytes → Bytes → Bytes := fun _ _ payload =>
  if payload = buildSigningInput updateBody updateKey.name updateKey.algorithm.name none 300 300 0 [] false then
    Octets.bigEndian 32 0x5daa2b11f2d936eed2026f925489266edbcaa47dd7e475826895c60fff023eb7
  else List.replicate 32 0

/-- The update as it is signed. -/
def update : Bytes := (sign updateHMAC updateBody updateKey (300 * second) updateFudge).toOption.getD []

theorem authentic_update : ∃ body tsig, Authentic updateHMAC update updateKey none false body tsig ∧
    tsig.signed = 300 * second := by
  have hverify : verifyMAC updateHMAC update updateKey (300 * second) updateFudge =
      .ok (updateBody, (updateHMAC .hmacSHA256 [0x73]
        (buildSigningInput updateBody updateKey.name updateKey.algorithm.name none 300 300 0 [] false)),
        300 * second) := by decide +kernel
  obtain ⟨tsig, hauthentic, -, hsigned, -⟩ := verifyWithPrefix_eq_ok.mp hverify
  exact ⟨_, tsig, hauthentic, hsigned⟩

theorem acceptances_le_one_iff_update :
    (∃ body tsig, Authentic updateHMAC update updateKey none false body tsig) ∧
    updateFudge ≤ 600 * second ∧ 600 * second < 2 ^ 63 ∧
    acceptances updateHMAC updateKey updateFudge update
      (some (newMemoryReplayCache (some 0) (some (600 * second)))) [⟨update, 0⟩, ⟨update, 600 * second⟩] ≤ 1 := by
  have hfudge : updateFudge ≤ 600 * second := by decide
  have hmax : 600 * second < 2 ^ 63 := by decide
  have hroom : NeverFull updateHMAC updateKey updateFudge
      (some (newMemoryReplayCache (some 0) (some (600 * second)))) [⟨update, 0⟩, ⟨update, 600 * second⟩] := by
    refine ⟨?_, ?_, trivial⟩
    · decide +kernel
    · decide +kernel
  obtain ⟨body, tsig, hauthentic, -⟩ := authentic_update
  refine ⟨⟨body, tsig, hauthentic⟩, hfudge, hmax, ?_⟩
  exact (acceptances_le_one_iff updateHMAC updateKey update 0 (600 * second) updateFudge hfudge hmax).mpr
    (fun _ => by decide) _ (by decide) hroom

/-- **An update is replayed.** With the default window and fudge it is accepted 300 s before its time of signing and
again 300 s behind it. -/
theorem acceptances_update :
    NeverFull updateHMAC updateKey updateFudge (some (newMemoryReplayCache none none))
      [⟨update, 0⟩, ⟨update, 600 * second⟩] ∧
    acceptances updateHMAC updateKey updateFudge update (some (newMemoryReplayCache none none))
      [⟨update, 0⟩, ⟨update, 600 * second⟩] = 2 := by
  obtain ⟨body, tsig, hauthentic, hsigned⟩ := authentic_update
  apply acceptances_twice hauthentic defaultReplayCacheSize
  · decide
  · decide
  · decide
  · rw [hsigned]
    rfl

end Acidns.Tsig
