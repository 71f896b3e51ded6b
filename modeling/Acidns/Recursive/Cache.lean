import Acidns.Lib.Table
import Acidns.Wire.Message

/-!
# The resolver's cache

`recursive/cache.go`: entries, and the in-memory cache with its bound on records per entry and its
bound on entries per shard. The shards are one table here, with the shard of a key given by a
function; times are nanoseconds on the cache's clock.
-/

namespace Acidns

namespace Recursive

/-- A cached answer, with the time at which it ends. -/
structure Entry where
  answer : List Record
  authority : List Record
  additional : List Record
  rcode : RCODE
  aa : Bool
  ad : Bool
  expiresAt : Int
  deriving DecidableEq

/-- Answers are kept by name, class and type. -/
structure CacheKey where
  name : Bytes
  class_ : RRClass
  typ : RRType
  deriving DecidableEq

def nameKey (n : Name) : Bytes := n.appendWire []

def key (n : Name) (c : RRClass) (t : RRType) : CacheKey := ⟨nameKey n, c, t⟩

structure MemoryCacheConfig where
  /-- The bound on the entries of one shard; zero for none. -/
  maxSize : Nat
  /-- The bound on the records of one entry; zero for none. -/
  maxRecordsPerEntry : Nat
  shardFor : CacheKey → Fin 64

def defaultMemoryCacheSize : Nat := 10000
def defaultMaxRecordsPerEntry : Nat := 256
def numCacheShards : Nat := 64

/-- The settings of `NewMemoryCache` for a bound on all entries together. -/
def newMemoryCacheConfig (size records : Nat) (shardFor : CacheKey → Fin 64) : MemoryCacheConfig :=
  ⟨if size > 0 then (size + numCacheShards - 1) / numCacheShards else 0, records, shardFor⟩

/-- All shards in one table. -/
structure MemoryCache where
  entries : Table CacheKey Entry
  /-- How often an insertion found its shard full; history only, nothing reads it. -/
  evictions : Nat

namespace MemoryCache

def empty : MemoryCache := ⟨∅, 0⟩

def cloneRecordsWithTTL (rs : List Record) (ttl : Duration) : List Record :=
  rs.map fun r => newRecordClass r.name r.class_ ttl r.rd

/-- A hit never shows more than what is left. -/
def cloneEntryWithTTL (e : Entry) (remaining : Duration) : Entry :=
  { e with
    answer := cloneRecordsWithTTL e.answer remaining
    authority := cloneRecordsWithTTL e.authority remaining
    additional := cloneRecordsWithTTL e.additional remaining }

/-- An expired entry is removed on the way. -/
def get (c : MemoryCache) (k : CacheKey) (now : Int) : Option Entry × MemoryCache :=
  match c.entries.lookup k with
  | none => (none, c)
  | some e =>
    let remaining := e.expiresAt - now
    if remaining ≤ 0 then (none, { c with entries := c.entries.erase k })
    else (some (cloneEntryWithTTL e remaining), c)

/-- At most `limit` records, dropped from the additional, then the authority, then the answer records. -/
def capEntryRecords (e : Entry) (limit : Nat) : Entry :=
  let total := e.answer.length + e.authority.length + e.additional.length
  if total ≤ limit then e
  else
    let trim := total - limit
    let drop := min e.additional.length trim
    let trim' := trim - drop
    let drop' := min e.authority.length trim'
    let trim'' := trim' - drop'
    let drop'' := min e.answer.length trim''
    { e with
      additional := e.additional.take (e.additional.length - drop)
      authority := e.authority.take (e.authority.length - drop')
      answer := e.answer.take (e.answer.length - drop'') }

def shardEntries (cfg : MemoryCacheConfig) (entries : Table CacheKey Entry) (shard : Fin 64) :
    List (Σ _ : CacheKey, Entry) :=
  entries.entries.filter fun e => cfg.shardFor e.1 = shard

/-- Room in a shard: expired entries go first, then the entry that expires soonest. -/
def evictLocked (cfg : MemoryCacheConfig) (entries : Table CacheKey Entry) (shard : Fin 64) (now : Int) :
    Table CacheKey Entry :=
  let kept := Table.filter (fun k e => cfg.shardFor k ≠ shard ∨ now < e.expiresAt) entries
  if (shardEntries cfg kept shard).length < cfg.maxSize then kept
  else
    match Table.leastKey Entry.expiresAt (shardEntries cfg kept shard) with
    | none => kept
    | some k => kept.erase k

/-- A new key has no room in its shard. -/
def Full (cfg : MemoryCacheConfig) (c : MemoryCache) (k : CacheKey) : Prop :=
  k ∉ c.entries ∧ cfg.maxSize > 0 ∧ cfg.maxSize ≤ (shardEntries cfg c.entries (cfg.shardFor k)).length

instance (cfg : MemoryCacheConfig) (c : MemoryCache) (k : CacheKey) : Decidable (Full cfg c k) :=
  inferInstanceAs (Decidable (_ ∧ _))

def capped (cfg : MemoryCacheConfig) (e : Entry) : Entry :=
  if cfg.maxRecordsPerEntry > 0 then capEntryRecords e cfg.maxRecordsPerEntry else e

/-- A full shard gives up an entry first. -/
def put (cfg : MemoryCacheConfig) (c : MemoryCache) (k : CacheKey) (e : Entry) (now : Int) : MemoryCache :=
  if Full cfg c k then
    ⟨(evictLocked cfg c.entries (cfg.shardFor k) now).insert k (capped cfg e), c.evictions + 1⟩
  else { c with entries := c.entries.insert k (capped cfg e) }

section Lemmas

variable {cfg : MemoryCacheConfig} {c : MemoryCache} {k k' : CacheKey} {e e' : Entry} {now : Int}

theorem get_eq_some (h : (c.get k now).1 = some e') :
    ∃ e, c.entries.lookup k = some e ∧ now < e.expiresAt ∧ e' = cloneEntryWithTTL e (e.expiresAt - now) := by
  grind [get]

theorem get_of_lookup (h : c.entries.lookup k = some e) (hlive : now < e.expiresAt) :
    c.get k now = (some (cloneEntryWithTTL e (e.expiresAt - now)), c) := by
  rw [get, h]
  exact if_neg (by omega)

theorem lookup_of_lookup_get (h : (c.get k now).2.entries.lookup k' = some e) :
    c.entries.lookup k' = some e := by
  grind [get, Table.lookup_of_lookup_erase]

theorem lookup_get (h : c.entries.lookup k' = some e) (hlive : now < e.expiresAt) :
    (c.get k now).2.entries.lookup k' = some e := by
  grind [get, Table.lookup_erase_eq]

theorem lookup_get_none (h : (c.get k now).1 = none) : (c.get k now).2.entries.lookup k = none := by
  grind [get, AList.lookup_erase]

theorem evictions_get : (c.get k now).2.evictions = c.evictions := by
  unfold get
  split
  · rfl
  · dsimp only
    split <;> rfl

theorem lookup_of_lookup_evictLocked {entries : Table CacheKey Entry} {shard : Fin 64}
    (h : (evictLocked cfg entries shard now).lookup k = some e) : entries.lookup k = some e := by
  have hfilter : ∀ {p : CacheKey → Entry → Bool},
      AList.lookup k (Table.filter p entries) = some e → entries.lookup k = some e := fun hkept =>
    (Table.lookup_filter_eq_some.mp hkept).1
  unfold evictLocked at h
  dsimp only at h
  split at h
  · exact hfilter h
  · split at h
    · exact hfilter h
    · exact hfilter (Table.lookup_of_lookup_erase h)

theorem lookup_put : (c.put cfg k e now).entries.lookup k = some (capped cfg e) := by
  unfold put
  split <;> exact AList.lookup_insert _

theorem lookup_of_lookup_put (hk : k' ≠ k) (h : (c.put cfg k e now).entries.lookup k' = some e') :
    c.entries.lookup k' = some e' := by
  grind [put, AList.lookup_insert_ne, lookup_of_lookup_evictLocked]

theorem lookup_put_ne (hk : k' ≠ k) (hroom : (c.put cfg k e now).evictions = c.evictions) :
    (c.put cfg k e now).entries.lookup k' = c.entries.lookup k' := by
  grind [put, AList.lookup_insert_ne]

theorem evictions_le_put : c.evictions ≤ (c.put cfg k e now).evictions := by
  unfold put
  split
  · exact Nat.le_succ _
  · exact Nat.le_refl _

theorem capEntryRecords_eq {limit : Nat} : ∃ n n' n'', capEntryRecords e limit =
    { e with
      answer := e.answer.take n, authority := e.authority.take n', additional := e.additional.take n'' } := by
  unfold capEntryRecords
  dsimp only
  split
  · exact ⟨e.answer.length, e.authority.length, e.additional.length, by simp only [List.take_length]⟩
  · exact ⟨_, _, _, rfl⟩

theorem capped_eq : ∃ n n' n'', capped cfg e =
    { e with
      answer := e.answer.take n, authority := e.authority.take n', additional := e.additional.take n'' } := by
  unfold capped
  split
  · exact capEntryRecords_eq
  · exact ⟨e.answer.length, e.authority.length, e.additional.length, by simp only [List.take_length]⟩

@[simp] theorem capped_rcode : (capped cfg e).rcode = e.rcode := by
  obtain ⟨n, n', n'', h⟩ := @capped_eq cfg e
  rw [h]

@[simp] theorem capped_ad : (capped cfg e).ad = e.ad := by
  obtain ⟨n, n', n'', h⟩ := @capped_eq cfg e
  rw [h]

@[simp] theorem capped_expiresAt : (capped cfg e).expiresAt = e.expiresAt := by
  obtain ⟨n, n', n'', h⟩ := @capped_eq cfg e
  rw [h]

theorem capped_answer (h : cfg.maxRecordsPerEntry = 0 ∨ e.answer.length ≤ cfg.maxRecordsPerEntry) :
    (capped cfg e).answer = e.answer := by
  grind [capped, capEntryRecords, List.take_of_length_le]

@[simp] theorem cloneEntryWithTTL_rcode {d : Duration} : (cloneEntryWithTTL e d).rcode = e.rcode := rfl

end Lemmas

end MemoryCache

end Recursive

end Acidns
