import Acidns.Tsig.Replay
import Acidns.Sig0.Basic

/-!
# Replayed signatures of SIG(0)

`sig0/replay.go`: a cache of the signatures that have been seen, and the verification that refuses a message whose
signature is in it. Every call first forgets the signatures that were first seen more than a window ago.

The window is measured in nanoseconds from the first call, the validity period in whole seconds, with both ends
in it. A message can come again when the second behind its expiration has begun.
-/

namespace Acidns.Sig0

open List

def hexNibbles : (n v : Nat) → Bytes
  | 0, _ => []
  | n + 1, v => hexNibbles n (v / 16) ++ [Tsig.hexDigit (v % 16)]

def hexInt64 (v : Int) : Bytes := hexNibbles 16 (v % 2 ^ 64).toNat

/-- What the cache remembers of a signature. -/
def replayKey (signer : Name) (inception : Int) (signature : Bytes) : Bytes :=
  signer.appendWire [] ++ [0] ++ hexInt64 (inception / second) ++ [0] ++ Tsig.hexEncode signature

/-- Accepted signatures with the times they were seen. -/
structure MemoryReplayCache where
  size : Int
  window : Duration
  seenAt : Table Bytes Int

def defaultReplayWindow : Duration := 5 * 60 * second

def defaultReplayCacheSize : Int := 16384

def newMemoryReplayCache (size : Option Int) (window : Option Duration) : MemoryReplayCache :=
  ⟨size.getD defaultReplayCacheSize, window.getD defaultReplayWindow, ∅⟩

namespace MemoryReplayCache

def evictExpiredLocked (c : MemoryReplayCache) (now : Int) : MemoryReplayCache :=
  { c with seenAt := Table.filter (fun _ t => ¬t < now - c.window) c.seenAt }

def evictOldestLocked (c : MemoryReplayCache) : MemoryReplayCache :=
  match Table.leastKey id c.seenAt.entries with
  | none => c
  | some k => { c with seenAt := c.seenAt.erase k }

def Full (c : MemoryReplayCache) : Prop := c.size > 0 ∧ c.size ≤ c.seenAt.size

instance instDecidableFull (c : MemoryReplayCache) : Decidable c.Full := inferInstanceAs (Decidable (_ ∧ _))

def makeRoom (c : MemoryReplayCache) : MemoryReplayCache := if c.Full then c.evictOldestLocked else c

/-- `Seen`: whether the signature is known; if not, it is from now on. -/
def seen (c : MemoryReplayCache) (signer : Name) (inception : Int) (signature : Bytes) (now : Int) :
    Bool × MemoryReplayCache :=
  let k := replayKey signer inception signature
  let c := c.evictExpiredLocked now
  if k ∈ c.seenAt then (true, c)
  else (false, { c.makeRoom with seenAt := c.makeRoom.seenAt.insert k now })

end MemoryReplayCache

def ParsedSIG.incept (sig : ParsedSIG) : Int := sig.inception.toNat * second

def ParsedSIG.key (sig : ParsedSIG) : Bytes := replayKey sig.signer sig.incept sig.signature

section Verify

variable (crypto : Crypto)

/-- `VerifyWithReplay`; the cache reads the clock that gave `now`. -/
def verifyWithReplay (msg : Bytes) (key : DNSKEY) (expectedSigner : Name) (now : Int)
    (cache : Option MemoryReplayCache) : Except Sig0Error Bytes × Option MemoryReplayCache :=
  match verifyExtractSIG crypto msg key expectedSigner now with
  | .error e => (.error e, cache)
  | .ok (body, sig) =>
    match cache with
    | none => (.ok body, none)
    | some c =>
      match c.seen sig.signer sig.incept sig.signature now with
      | (true, c) => (.error ⟨.replay, "sig0: message is a replay"⟩, some c)
      | (false, c) => (.ok body, some c)

/-! ### Runs -/

/-- A message that is verified, with what key and for what signer, and when. -/
structure Call where
  msg : Bytes
  key : DNSKEY
  signer : Name
  now : Int

structure Content where
  body : Bytes
  expiration : UInt32
  inception : UInt32
  keyTag : UInt16
  signer : Name
  deriving DecidableEq

def ParsedSIG.content (sig : ParsedSIG) (body : Bytes) : Content :=
  ⟨body, sig.expiration, sig.inception, sig.keyTag, sig.signer⟩

def contentOf (msg : Bytes) : Option Content := (stripSIG msg).toOption.map fun found => found.2.content found.1

def Call.step (call : Call) (c : MemoryReplayCache) : Except Sig0Error Bytes × Option MemoryReplayCache :=
  verifyWithReplay crypto call.msg call.key call.signer call.now (some c)

variable (key : DNSKEY) (content : Content)

/-- How many calls are accepted. -/
def acceptances : MemoryReplayCache → List Call → Nat
  | _, [] => 0
  | c, call :: calls =>
    (if call.key = key ∧ contentOf call.msg = some content ∧ (call.step crypto c).1.isOk then 1 else 0) +
      acceptances ((call.step crypto c).2.getD c) calls

def NeverFull : MemoryReplayCache → List Call → Prop
  | _, [] => True
  | c, call :: calls =>
    ¬(c.evictExpiredLocked call.now).Full ∧ NeverFull ((call.step crypto c).2.getD c) calls

def Timely (call : Call) (body : Bytes) (sig : ParsedSIG) : Prop :=
  Authentic crypto call.msg call.key call.signer body sig ∧ sig.InPeriod call.now

/-- A call presents the content, signed with the key, in its validity period. -/
def Presents (call : Call) : Prop :=
  call.key = key ∧ ∃ body sig, Timely crypto call body sig ∧ sig.content body = content

/-- Two calls that present the content are never more than a window apart. -/
def Close (window : Duration) (calls : List Call) : Prop :=
  calls.Pairwise fun a b => Presents crypto key content a → Presents crypto key content b → b.now ≤ a.now + window

/-- No other content is presented under the same signer, inception and signature. -/
def Unmixed (calls : List Call) : Prop :=
  ∀ a ∈ calls, ∀ b ∈ calls, ∀ body body' sig sig', Timely crypto a body sig → a.key = key → sig.content body = content →
    Timely crypto b body' sig' → sig'.signer = sig.signer → sig'.inception = sig.inception →
    sig'.signature = sig.signature → b.key = key ∧ sig'.content body' = content

/-- At most one signature of some data verifies with the key. -/
def UniqueSignatures : Prop :=
  ∀ data signature signature', verifySignature crypto key.algorithm key.pubkey data signature = .ok () →
    verifySignature crypto key.algorithm key.pubkey data signature' = .ok () → signature = signature'

end Verify

/-! ### What the cache remembers -/

namespace MemoryReplayCache

variable {c : MemoryReplayCache} {k signature : Bytes} {now t inception : Int} {signer : Name}

theorem lookup_evictExpired_eq_some : (c.evictExpiredLocked now).seenAt.lookup k = some t ↔
    c.seenAt.lookup k = some t ∧ now ≤ t + c.window := by
  refine Table.lookup_filter_eq_some.trans (and_congr_right fun _ => ?_)
  rw [decide_eq_true_eq]
  omega

theorem window_makeRoom : c.makeRoom.window = c.window := by
  unfold makeRoom evictOldestLocked
  split
  · split <;> rfl
  · rfl

theorem lookup_of_makeRoom (h : c.makeRoom.seenAt.lookup k = some t) : c.seenAt.lookup k = some t := by
  grind [makeRoom, evictOldestLocked, Table.lookup_of_lookup_erase]

theorem window_seen : (c.seen signer inception signature now).2.window = c.window := by
  unfold seen
  dsimp only
  split
  · rfl
  · exact window_makeRoom

theorem seen_known : (c.seen signer inception signature now).1 =
    ((c.evictExpiredLocked now).seenAt.lookup (replayKey signer inception signature)).isSome := by
  unfold seen
  dsimp only
  split
  · rename_i hmem
    exact (AList.lookup_isSome.mpr hmem).symm
  · rename_i hnew
    rw [AList.lookup_eq_none.mpr hnew]
    rfl

theorem lookup_seen (hroom : ¬(c.evictExpiredLocked now).Full)
    (h : (c.evictExpiredLocked now).seenAt.lookup k = some t) :
    (c.seen signer inception signature now).2.seenAt.lookup k = some t := by
  unfold seen
  dsimp only
  split
  · exact h
  · rename_i hnew
    have hne : k ≠ replayKey signer inception signature := by
      rintro rfl
      exact hnew (Table.mem_of_lookup h)
    rw [makeRoom, if_neg hroom]
    rw [AList.lookup_insert_ne hne]
    exact h

theorem lookup_of_seen_eq_false (h : (c.seen signer inception signature now).1 = false) :
    (c.seen signer inception signature now).2.seenAt.lookup (replayKey signer inception signature) = some now := by
  grind [seen, AList.lookup_insert]

theorem lookup_seen_cases (h : (c.seen signer inception signature now).2.seenAt.lookup k = some t) :
    (k = replayKey signer inception signature ∧ (c.seen signer inception signature now).1 = false) ∨
      c.seenAt.lookup k = some t := by
  unfold seen at h ⊢
  dsimp only at h ⊢
  split at h
  · exact .inr (lookup_evictExpired_eq_some.mp h).1
  · rename_i hnew
    rw [if_neg hnew]
    by_cases hk : k = replayKey signer inception signature
    · exact .inl ⟨hk, rfl⟩
    · dsimp only at h
      rw [AList.lookup_insert_ne hk] at h
      exact .inr (lookup_evictExpired_eq_some.mp (lookup_of_makeRoom h)).1

end MemoryReplayCache

open MemoryReplayCache

/-! ### One call -/

section Step

variable {crypto : Crypto} {key : DNSKEY} {content : Content} {c : MemoryReplayCache} {call : Call}
  {body body' : Bytes} {sig sig' : ParsedSIG}

def Call.next (crypto : Crypto) (call : Call) (c : MemoryReplayCache) : MemoryReplayCache :=
  (call.step crypto c).2.getD c

theorem Timely.unique (h : Timely crypto call body sig) (h' : Timely crypto call body' sig') :
    body = body' ∧ sig = sig' :=
  Prod.mk.inj (Except.ok.inj (h.1.strip.symm.trans h'.1.strip))

theorem Timely.contentOf (h : Timely crypto call body sig) : contentOf call.msg = some (sig.content body) := by
  rw [Sig0.contentOf, h.1.strip]
  rfl

theorem step_cases (crypto : Crypto) (call : Call) (c : MemoryReplayCache) :
    ((∀ body sig, ¬Timely crypto call body sig) ∧ (call.step crypto c).1.isOk = false ∧ call.next crypto c = c) ∨
    ∃ body sig, Timely crypto call body sig ∧
      (call.step crypto c).1.isOk = !(c.seen sig.signer sig.incept sig.signature call.now).1 ∧
      call.next crypto c = (c.seen sig.signer sig.incept sig.signature call.now).2 := by
  unfold Call.next Call.step verifyWithReplay
  cases hverify : verifyExtractSIG crypto call.msg call.key call.signer call.now with
  | error e =>
    refine .inl ⟨fun body sig htimely => ?_, rfl, rfl⟩
    cases hverify.symm.trans (verifyExtractSIG_eq_ok.mpr htimely)
  | ok found =>
    refine .inr ⟨found.1, found.2, verifyExtractSIG_eq_ok.mp hverify, ?_⟩
    cases hknown : (c.seen found.2.signer found.2.incept found.2.signature call.now).1 with
    | true => grind [Except.toBool]
    | false => grind [Except.toBool]

theorem window_next : (call.next crypto c).window = c.window := by
  rcases step_cases crypto call c with ⟨-, -, hnext⟩ | ⟨body, sig, -, -, hnext⟩
  · rw [hnext]
  · rw [hnext, window_seen]

theorem Timely.step (h : Timely crypto call body sig) (c : MemoryReplayCache) :
    (call.step crypto c).1.isOk = !((c.evictExpiredLocked call.now).seenAt.lookup sig.key).isSome ∧
      call.next crypto c = (c.seen sig.signer sig.incept sig.signature call.now).2 := by
  rcases step_cases crypto call c with ⟨hno, -, -⟩ | ⟨body', sig', h', hstep⟩
  · exact absurd h (hno body sig)
  · obtain ⟨rfl, rfl⟩ := h.unique h'
    rwa [seen_known] at hstep

theorem counted_iff : (call.key = key ∧ contentOf call.msg = some content ∧ (call.step crypto c).1.isOk = true) ↔
    Presents crypto key content call ∧ (call.step crypto c).1.isOk = true := by
  constructor
  · rintro ⟨hkey, hcontent, hok⟩
    rcases step_cases crypto call c with ⟨-, hrefused, -⟩ | ⟨body, sig, htimely, -, -⟩
    · exact absurd (hrefused.symm.trans hok) Bool.false_ne_true
    · exact ⟨⟨hkey, body, sig, htimely, Option.some.inj (htimely.contentOf.symm.trans hcontent)⟩, hok⟩
  · rintro ⟨⟨hkey, body, sig, htimely, rfl⟩, hok⟩
    exact ⟨hkey, htimely.contentOf, hok⟩

end Step

/-! ### Accepting a message once -/

section Once

variable {crypto : Crypto} {key : DNSKEY} {content : Content} {c : MemoryReplayCache} {calls : List Call}
  {call call' : Call} {body body' k : Bytes} {sig sig' : ParsedSIG} {t : Int}

theorem signedData_of_content (h : sig.content body = sig'.content body') (alg : UInt8) :
    sig.signedData alg body = sig'.signedData alg body' := by
  grind [ParsedSIG.signedData, ParsedSIG.content]

section

variable (hunique : UniqueSignatures crypto key) (hkey : call.key = key) (hkey' : call'.key = key)
  (htimely : Timely crypto call body sig) (htimely' : Timely crypto call' body' sig')
  (hcontent : sig.content body = content) (hcontent' : sig'.content body' = content)

include hunique hkey hkey' htimely htimely' hcontent hcontent'

theorem signature_eq : sig.signature = sig'.signature := by
  have hverifies := htimely.1.signature
  have hverifies' := htimely'.1.signature
  rw [hkey] at hverifies
  rw [hkey', ← signedData_of_content (hcontent.trans hcontent'.symm)] at hverifies'
  exact hunique _ _ _ hverifies hverifies'

theorem key_eq : sig.key = sig'.key := by
  obtain ⟨-, -, hinception, -, hsigner⟩ := Content.mk.inj (hcontent.trans hcontent'.symm)
  rw [ParsedSIG.key, ParsedSIG.key, ParsedSIG.incept, ParsedSIG.incept, hsigner, hinception,
    signature_eq hunique hkey hkey' htimely htimely' hcontent hcontent']

end

/-! The cache as it watches for the content, whose signature has the key `k` in it. -/

variable (hk : ∀ {call body sig}, Timely crypto call body sig → call.key = key → sig.content body = content → sig.key = k)

def watch : Watch MemoryReplayCache Call where
  now := Call.now
  Presents := Presents crypto key content
  Accepts call c := Presents crypto key content call ∧ (call.step crypto c).1.isOk = true
  next := Call.next crypto
  since c := c.seenAt.lookup k
  window := MemoryReplayCache.window
  count := acceptances crypto key content
  presents := And.left
  notes := by
    rintro call c ⟨⟨hkey, body, sig, htimely, hcontent⟩, hok⟩
    obtain ⟨hstep, hnext⟩ := htimely.step c
    rw [hnext, ← hk htimely hkey hcontent]
    refine lookup_of_seen_eq_false ?_
    rw [hstep] at hok
    simpa [seen_known, ParsedSIG.key] using hok
  window_next _ _ := window_next
  count_nil _ := rfl
  count_accepted h := by
    rw [acceptances, if_pos (counted_iff.mpr h), Nat.add_comm]
    rfl
  count_refused h := by
    rw [acceptances, if_neg (mt counted_iff.mp h), Nat.zero_add]
    rfl

theorem remembers_watch : (watch hk).Remembers (NeverFull crypto) where
  safe_next h := h.2
  refuses {call c t} hlookup hnow := by
    rintro ⟨⟨hkey, body, sig, htimely, hcontent⟩, hok⟩
    have hkept : (c.evictExpiredLocked call.now).seenAt.lookup k = some t := lookup_evictExpired_eq_some.mpr ⟨hlookup, hnow⟩
    rw [(htimely.step c).1, hk htimely hkey hcontent, hkept] at hok
    cases hok
  keeps {call c calls t} hroom hlookup hnow := by
    change (call.next crypto c).seenAt.lookup k = some t
    rcases step_cases crypto call c with ⟨-, -, hnext⟩ | ⟨body, sig, -, -, hnext⟩
    · rw [hnext]
      exact hlookup
    · rw [hnext]
      exact lookup_seen hroom.1 (lookup_evictExpired_eq_some.mpr ⟨hlookup, hnow⟩)

theorem forgets_watch (hown : ∀ call ∈ calls, ∀ body sig, Timely crypto call body sig → sig.key = k →
    call.key = key ∧ sig.content body = content) : (watch hk).Forgets calls where
  accepts {call c} hpresents hold := by
    refine ⟨hpresents, ?_⟩
    obtain ⟨hkey, body, sig, htimely, hcontent⟩ := hpresents
    rw [(htimely.step c).1, hk htimely hkey hcontent]
    cases hlookup : (c.evictExpiredLocked call.now).seenAt.lookup k with
    | none => rfl
    | some t =>
      obtain ⟨hthere, hnow⟩ := lookup_evictExpired_eq_some.mp hlookup
      exact absurd (hold t hthere) (Int.not_lt.mpr hnow)
  fresh call hcall {c t} hrefused h := by
    change (call.next crypto c).seenAt.lookup k = some t at h
    rcases step_cases crypto call c with ⟨-, -, hnext⟩ | ⟨body, sig, htimely, hok, hnext⟩
    · rwa [hnext] at h
    · rw [hnext] at h
      rcases lookup_seen_cases h with ⟨hsame, hnew⟩ | hold
      · obtain ⟨hkey, hcontent⟩ := hown call hcall body sig htimely hsame.symm
        exact absurd ⟨⟨hkey, body, sig, htimely, hcontent⟩, by rw [hok, hnew]; rfl⟩ hrefused
      · exact hold

end Once

/-! ### Keys -/

section Keys

variable {a b n v w : Nat} {bs cs : Bytes} {sig sig' : ParsedSIG}

theorem hexDigit_inj (ha : a < 16) (hb : b < 16) (h : Tsig.hexDigit a = Tsig.hexDigit b) : a = b := by
  have hall : ∀ a < 16, ∀ b < 16, Tsig.hexDigit a = Tsig.hexDigit b → a = b := by decide
  exact hall a ha b hb h

theorem hexEncode_eq (bs : Bytes) : Tsig.hexEncode bs = Numeral.hexEncode bs := by
  have hdigit : ∀ n < 16, Tsig.hexDigit n = Numeral.hexDigit n := by decide
  refine flatMap_congr fun b _ => ?_
  have hb := b.toNat_lt
  rw [Numeral.hexByte, hdigit _ (by omega), hdigit _ (by omega)]

theorem hexEncode_inj (h : Tsig.hexEncode bs = Tsig.hexEncode cs) : bs = cs := by
  rw [hexEncode_eq, hexEncode_eq] at h
  have hdecode := congrArg Numeral.hexDecode h
  rwa [Numeral.hexDecode_hexEncode, Numeral.hexDecode_hexEncode, Option.some.injEq] at hdecode

@[simp] theorem length_hexNibbles (n v : Nat) : (hexNibbles n v).length = n := by
  induction n generalizing v with
  | zero => rfl
  | succ n ih => rw [hexNibbles, length_append, ih, length_singleton]

theorem hexNibbles_inj (hv : v < 16 ^ n) (hw : w < 16 ^ n) (h : hexNibbles n v = hexNibbles n w) : v = w := by
  induction n generalizing v w with
  | zero => omega
  | succ n ih =>
    obtain ⟨hfront, hlast⟩ := append_inj h (by simp)
    have hlow := hexDigit_inj (Nat.mod_lt _ (by decide)) (Nat.mod_lt _ (by decide)) (List.cons.inj hlast).1
    have hhigh := ih (Nat.div_lt_of_lt_mul (by omega)) (Nat.div_lt_of_lt_mul (by omega)) hfront
    omega

/-- The key determines signer, inception and signature. -/
theorem key_inj (hvalid : sig.signer.isValid) (hvalid' : sig'.signer.isValid) (h : sig.key = sig'.key) :
    sig.signer = sig'.signer ∧ sig.inception = sig'.inception ∧ sig.signature = sig'.signature := by
  rw [ParsedSIG.key, ParsedSIG.key, replayKey, replayKey, Name.wire_of_valid hvalid, Name.wire_of_valid hvalid',
    Name.wire_eq_encode hvalid, Name.wire_eq_encode hvalid'] at h
  simp only [append_assoc] at h
  have hlabels : ∀ {n : Name}, ∀ l ∈ n.labels, Labels.IsLabel l := fun l hl => (Name.isNameLabel_of_mem_labels hl).1
  have hname : sig.signer.labels = sig'.signer.labels := by
    have hsplit := congrArg Labels.split h
    rwa [Labels.split_encode_append hlabels, Labels.split_encode_append hlabels] at hsplit
  have hsigner : sig.signer = sig'.signer := by
    refine Name.equal_iff.mp (decide_eq_true ?_)
    rw [Name.wire_eq_encode hvalid, Name.wire_eq_encode hvalid', hname]
  rw [hname, append_cancel_left_eq] at h
  obtain ⟨htime, h⟩ := append_inj (append_cancel_left h) (by simp [hexInt64])
  refine ⟨hsigner, ?_, hexEncode_inj (append_cancel_left h)⟩
  have hsecond : ∀ i : UInt32, ((i.toNat * second : Int) / second % 2 ^ 64).toNat = i.toNat := by
    intro i
    have hi := i.toNat_lt
    rw [Int.mul_ediv_cancel _ (by decide)]
    omega
  have hnat := hexNibbles_inj (n := 16) ?_ ?_ htime
  · rw [ParsedSIG.incept, ParsedSIG.incept, hsecond, hsecond] at hnat
    exact UInt32.toNat_inj.mp hnat
  · rw [ParsedSIG.incept, hsecond]
    exact lt_of_lt_of_le sig.inception.toNat_lt (by decide)
  · rw [ParsedSIG.incept, hsecond]
    exact lt_of_lt_of_le sig'.inception.toNat_lt (by decide)

theorem signer_isValid {msg body : Bytes} (h : stripSIG msg = .ok (body, sig)) : sig.signer.isValid := by
  obtain ⟨_, -, h⟩ := bind_ok h
  obtain ⟨_, -, h⟩ := bind_ok h
  obtain ⟨last, -, h⟩ := bind_ok h
  obtain ⟨owner, -, h⟩ := bind_ok h
  obtain ⟨_, -, h⟩ := bind_ok h
  obtain ⟨_, -, h⟩ := bind_ok h
  obtain ⟨_, -, h⟩ := bind_ok h
  obtain ⟨_, -, h⟩ := bind_ok h
  obtain ⟨_, -, h⟩ := bind_ok h
  obtain ⟨found, hparse, h⟩ := bind_ok h
  cases h
  obtain ⟨_, -, hparse⟩ := bind_ok hparse
  obtain ⟨signer, hsigner, hparse⟩ := bind_ok hparse
  obtain ⟨_, -, hparse⟩ := bind_ok hparse
  rw [← Except.ok.inj hparse]
  exact decodeWire_isValid (mapError_eq_ok.mp hsigner)

end Keys

/-! ### Windows and validity periods -/

section Window

variable {crypto : Crypto} {key : DNSKEY} {content : Content} {calls : List Call} {window : Duration}

def Content.validity (content : Content) : Nat := (content.expiration - content.inception).toNat

theorem elapsed_le {sig : ParsedSIG} {now : Int} (h : sig.InPeriod now) (body : Bytes) :
    (now / second - sig.inception.toNat) % 2 ^ 32 ≤ (sig.content body).validity := by
  have hexpired := of_decide_eq_false h.1
  have hearly := of_decide_eq_false h.2
  have hnow : (UInt32.ofInt (now / second)).toNat = (now / second % 2 ^ 32).toNat := by
    rw [UInt32.ofInt, UInt32.toNat_ofNat']
    omega
  have hinc := sig.inception.toNat_lt
  change _ ≤ ((sig.expiration - sig.inception).toNat : Int)
  rw [UInt32.toNat_sub] at hexpired hearly ⊢
  omega

theorem sub_le_of_elapsed {first last inception validity : Int} (hspan : last - first < 2 ^ 32 - validity)
    (hfirst : (first - inception) % 2 ^ 32 ≤ validity) (hlast : (last - inception) % 2 ^ 32 ≤ validity) :
    last - first ≤ validity := by
  omega

/-- **A window that is long enough.** One second more than the validity period keeps a content from being presented
again, until the seconds of 32 bits come round. -/
theorem close_of_window (hwindow : ((content.validity : Int) + 1) * second ≤ window)
    (hsorted : calls.Pairwise fun a b => a.now ≤ b.now)
    (hspan : calls.Pairwise fun a b => b.now / second - a.now / second < (2 ^ 32 : Int) - content.validity) :
    Close crypto key content window calls := by
  refine (hsorted.and hspan).imp ?_
  rintro a b ⟨hle, hspan⟩ ⟨-, body, sig, htimely, hcontent⟩ ⟨-, body', sig', htimely', hcontent'⟩
  have hfirst := elapsed_le htimely.2 body
  have hlast := elapsed_le htimely'.2 body'
  obtain ⟨-, -, hinception, -, -⟩ := Content.mk.inj (hcontent.trans hcontent'.symm)
  rw [hcontent] at hfirst
  rw [hcontent', ← hinception] at hlast
  have hnear := sub_le_of_elapsed hspan hfirst hlast
  have hunit : second = 1000000000 := rfl
  rw [hunit] at hwindow hnear
  omega

/-! ### An update that comes again -/

open Octets (bigEndian)

def updateKey : DNSKEY :=
  ⟨Dnssec.dnskeyFlagZone, 3, Dnssec.algED25519,
    bigEndian 32 0x79b5562e8fe654f94078b112e8a98ba7901f853ae695bed7e0e3910bad049664⟩

def updateContent : Content := ⟨Tsig.updateBody, 1300, 1000, 36559, Name.Short.k⟩

def updateSignature : Bytes :=
  bigEndian 64 0x1c4827134ec94d34d32edff670225813cd560daeccf6684cae5184b2023075096e4255e30b5e3023f29316c79fb2d5d1c01eb1707a85bd6493955f4d5f2c7b07

def updateCrypto : Crypto where
  verifyPKCS1v15 _ _ _ _ _ := false
  verifyECDSA _ _ _ _ _ _ := false
  verifyEd25519 pub data sig :=
    pub = updateKey.pubkey ∧ data = buildSIGRDataPrefix Dnssec.algED25519 1300 1000 36559 Name.Short.k ++ Tsig.updateBody ∧
      sig = updateSignature

def update : Bytes :=
  (sign Tsig.updateBody Name.Short.k Dnssec.algED25519 36559 (fun _ => .ok updateSignature) (1000 * second)
    (300 * second)).toOption.getD []

def updateAt (now : Int) : Call := ⟨update, updateKey, Name.Short.k, now⟩

theorem uniqueSignatures_update : UniqueSignatures updateCrypto updateKey := by
  have hone : ∀ data signature,
      verifySignature updateCrypto updateKey.algorithm updateKey.pubkey data signature = .ok () →
        signature = updateSignature := by
    intro data signature h
    obtain ⟨_, -, h⟩ := bind_ok h
    have hverified := Bool.not_eq_false _ ▸ refuseIf_ok.mp h
    exact (of_decide_eq_true hverified).2.2
  intro data signature signature' h h'
  rw [hone data signature h, hone data signature' h']

/-- **Replayed messages.** With a clock that does not go back and a cache that does not fill up, a content is accepted
at most once if its presentations are never more than a window apart; and only then, if nothing else comes with its
signature. -/
theorem acceptances_of_close (crypto : Crypto) (key : DNSKEY) (content : Content) (size : Int) (window : Duration)
    (calls : List Call) (hunique : UniqueSignatures crypto key) (hsorted : calls.Pairwise fun a b => a.now ≤ b.now)
    (hroom : NeverFull crypto (newMemoryReplayCache (some size) (some window)) calls) :
    (Close crypto key content window calls →
      acceptances crypto key content (newMemoryReplayCache (some size) (some window)) calls ≤ 1) ∧
    (Unmixed crypto key content calls →
      acceptances crypto key content (newMemoryReplayCache (some size) (some window)) calls ≤ 1 →
      Close crypto key content window calls) := by
  constructor
  · intro hclose
    by_cases hany : ∃ a, Presents crypto key content a
    · obtain ⟨a, hkey, body, sig, htimely, hcontent⟩ := hany
      exact (remembers_watch (k := sig.key) fun htimely' hkey' hcontent' =>
        key_eq hunique hkey' hkey htimely' htimely hcontent' hcontent).count_le_one hclose hsorted hroom
    · exact (remembers_watch (k := []) fun htimely hkey hcontent =>
        absurd ⟨_, hkey, _, _, htimely, hcontent⟩ hany).count_le_one hclose hsorted hroom
  · intro hunmixed honce
    by_cases hany : ∃ a ∈ calls, Presents crypto key content a
    · obtain ⟨a, ha, hkey, body, sig, htimely, hcontent⟩ := hany
      refine (forgets_watch (k := sig.key) (fun htimely' hkey' hcontent' =>
        key_eq hunique hkey' hkey htimely' htimely hcontent' hcontent) fun b hb body' sig' htimely' hsame => ?_).close
        (s := newMemoryReplayCache (some size) (some window)) rfl hsorted honce
      obtain ⟨hsigner, hinception, hsignature⟩ :=
        key_inj (signer_isValid htimely'.1.strip) (signer_isValid htimely.1.strip) hsame
      exact hunmixed a ha b hb body body' sig sig' htimely hkey hcontent htimely' hsigner hinception hsignature
    · refine pairwise_of_forall_mem_list fun a ha b _ hpresents => ?_
      exact absurd ⟨a, ha, hpresents⟩ hany

end Window

/-- **An update is replayed.** With the default window, as long as the validity period, an update is accepted when the
period begins and again a nanosecond after it ends. -/
theorem update_accepted_twice :
    UniqueSignatures updateCrypto updateKey ∧ updateContent.validity * second ≤ defaultReplayWindow ∧
    NeverFull updateCrypto (newMemoryReplayCache none none) [updateAt (1000 * second), updateAt (1300 * second + 1)] ∧
    acceptances updateCrypto updateKey updateContent (newMemoryReplayCache none none)
      [updateAt (1000 * second), updateAt (1300 * second + 1)] = 2 := by
  refine ⟨uniqueSignatures_update, by decide, ⟨?_, ?_, trivial⟩, ?_⟩
  · decide +kernel
  · decide +kernel
  · decide +kernel

/-- With a second more in the window it is not. -/
theorem acceptances_of_close_update :
    acceptances updateCrypto updateKey updateContent (newMemoryReplayCache none (some (301 * second)))
      [updateAt (1000 * second), updateAt (1300 * second + 1)] ≤ 1 := by
  have hsorted : [updateAt (1000 * second), updateAt (1300 * second + 1)].Pairwise fun a b => a.now ≤ b.now := by
    decide
  have hroom : NeverFull updateCrypto (newMemoryReplayCache (some defaultReplayCacheSize) (some (301 * second)))
      [updateAt (1000 * second), updateAt (1300 * second + 1)] := by
    refine ⟨?_, ?_, trivial⟩
    · decide +kernel
    · decide +kernel
  exact (acceptances_of_close updateCrypto updateKey updateContent defaultReplayCacheSize (301 * second) _
    uniqueSignatures_update hsorted hroom).1 (close_of_window (by decide) hsorted (by decide))

end Acidns.Sig0
