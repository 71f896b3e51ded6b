import Acidns.Recursive.Resolver

/-!
# The lifetime of a cached record

`entryFromResponse` of `recursive/recursive.go` gives an entry the smallest TTL of the answer and authority
sections of the response, and `MemoryCache.Get` shows every record of the entry with what is left of that. No
record of these two sections then outlives the TTL that it came with. The TTLs of the additional section are
not looked at.
-/

namespace Acidns.Recursive

open List

/-! ### The lifetime of an entry -/

section TTL

variable {records : List Record} {r : Record} {floor d : Duration}

theorem foldl_minTTL_le_iff (h : ∀ r ∈ records, 0 ≤ r.ttl) (hd : 0 ≤ d) :
    0 ≤ records.foldl (fun (s : Duration) r => if s < 0 ∨ r.ttl < s then r.ttl else s) d ∧
      ∀ x, records.foldl (fun (s : Duration) r => if s < 0 ∨ r.ttl < s then r.ttl else s) d ≤ x ↔
        d ≤ x ∨ ∃ r ∈ records, r.ttl ≤ x := by
  induction records generalizing d with
  | nil => exact ⟨hd, fun x => by simp⟩
  | cons r records ih =>
    obtain ⟨hr, hrecords⟩ := forall_mem_cons.mp h
    rw [foldl_cons]
    split
    · next hless =>
      obtain ⟨hnonneg, hiff⟩ := ih hrecords hr
      have hlt : r.ttl < d := hless.resolve_left (Int.not_lt.mpr hd)
      refine ⟨hnonneg, fun x => (hiff x).trans ?_⟩
      rw [exists_mem_cons_iff]
      exact ⟨.inr, fun hx => hx.elim (fun hdx => .inl (Int.le_trans (Int.le_of_lt hlt) hdx)) id⟩
    · next hless =>
      obtain ⟨hnonneg, hiff⟩ := ih hrecords hd
      have hge : d ≤ r.ttl := Int.not_lt.mp fun hlt => hless (.inr hlt)
      refine ⟨hnonneg, fun x => (hiff x).trans ?_⟩
      rw [exists_mem_cons_iff]
      exact ⟨.imp_right .inr, fun hx => hx.elim .inl (.imp_left (Int.le_trans hge))⟩

theorem minTTL_spec (h : ∀ r ∈ records, 0 ≤ r.ttl) (hfloor : 0 ≤ floor) :
    0 ≤ minTTL floor records ∧
      ∀ x, minTTL floor records ≤ x ↔ records = [] ∧ floor ≤ x ∨ ∃ r ∈ records, r.ttl ≤ x := by
  cases records with
  | nil => exact ⟨hfloor, fun x => by simp [minTTL]⟩
  | cons r records =>
    obtain ⟨hr, hrecords⟩ := forall_mem_cons.mp h
    have hfirst : (if (-1 : Duration) < 0 ∨ r.ttl < -1 then r.ttl else -1) = r.ttl := if_pos (.inl (by decide))
    obtain ⟨hnonneg, hiff⟩ := foldl_minTTL_le_iff hrecords hr
    unfold minTTL
    simp only [foldl_cons, hfirst, if_neg (Int.not_lt.mpr hnonneg)]
    exact ⟨hnonneg, fun x => by rw [hiff, exists_mem_cons_iff]; simp⟩

theorem capTTL_spec (hd : 0 ≤ d) :
    0 ≤ (if 0 < floor ∧ floor < d then floor else d) ∧
      ∀ x, (if 0 < floor ∧ floor < d then floor else d) ≤ x ↔ 0 < floor ∧ floor ≤ x ∨ d ≤ x := by
  grind

end TTL

theorem ttl_nonneg_of_sent {resp : Message} (h : resp.sent = resp) :
    ∀ r ∈ resp.answers ++ resp.authorities ++ resp.additionals, 0 ≤ r.ttl := by
  have hnonneg : ∀ {records : List Record}, records.map Record.sent = records → ∀ r ∈ records, 0 ≤ r.ttl := by
    intro records hsent r hr
    rw [← hsent] at hr
    obtain ⟨r', -, rfl⟩ := mem_map.mp hr
    exact Int.mul_nonneg (Int.natCast_nonneg _) (by decide)
  intro r hr
  rcases mem_append.mp hr with hr | hr
  · rcases mem_append.mp hr with hr | hr
    · exact hnonneg (congrArg Message.answers h) r hr
    · exact hnonneg (congrArg Message.authorities h) r hr
  · exact hnonneg (congrArg Message.additionals h) r hr

/-! ### Negative responses -/

section Negative

variable {authority : List Record} {soa : SOA} {r : Record}

def soaOf (r : Record) : Option SOA :=
  match r.rd with
  | .soa soa => some soa
  | _ => none

theorem negativeCacheTTL_eq : negativeCacheTTL authority =
    (authority.findSome? fun r => (soaOf r).map fun soa =>
      if r.ttl < soa.minimum then r.ttl else soa.minimum).getD 0 := by
  unfold negativeCacheTTL
  congr 2
  funext r
  unfold soaOf
  cases r.rd <;> rfl

theorem negativeCacheTTL_of_soa (h : authority.findSome? soaOf = some soa) :
    ∃ r ∈ authority, negativeCacheTTL authority = if r.ttl < soa.minimum then r.ttl else soa.minimum := by
  rw [negativeCacheTTL_eq]
  induction authority with
  | nil => cases h
  | cons r authority ih =>
    rw [findSome?_cons] at h ⊢
    cases hr : soaOf r with
    | some first =>
      rw [hr] at h
      cases h
      exact ⟨r, .head _, rfl⟩
    | none =>
      rw [hr] at h
      obtain ⟨r', hr', hneg⟩ := ih h
      exact ⟨r', .tail _ hr', hneg⟩

theorem negativeCacheTTL_of_none (h : authority.findSome? soaOf = none) : negativeCacheTTL authority = 0 := by
  have hnone : (authority.findSome? fun r => (soaOf r).map fun soa =>
      if r.ttl < soa.minimum then r.ttl else soa.minimum) = none := by
    rw [findSome?_eq_none_iff] at h ⊢
    intro r hr
    rw [h r hr, Option.map_none]
  rw [negativeCacheTTL_eq, hnone, Option.getD_none]

theorem negativeCacheTTL_le_iff (hnonneg : ∀ r ∈ authority, 0 ≤ r.ttl) {x : Duration} :
    (0 < negativeCacheTTL authority ∧ negativeCacheTTL authority ≤ x ∨ ∃ r ∈ authority, r.ttl ≤ x) ↔
      (∃ soa, authority.findSome? soaOf = some soa ∧ 0 < soa.minimum ∧ soa.minimum ≤ x) ∨
        ∃ r ∈ authority, r.ttl ≤ x := by
  cases hsoa : authority.findSome? soaOf with
  | none => simp [negativeCacheTTL_of_none hsoa]
  | some soa =>
    obtain ⟨r, hr, hneg⟩ := negativeCacheTTL_of_soa hsoa
    have hcases : ∀ ttl minimum : Int, 0 ≤ ttl → (ttl ≤ x → ∃ r ∈ authority, r.ttl ≤ x) →
        (0 < (if ttl < minimum then ttl else minimum) ∧ (if ttl < minimum then ttl else minimum) ≤ x ∨
          (∃ r ∈ authority, r.ttl ≤ x) ↔ 0 < minimum ∧ minimum ≤ x ∨ ∃ r ∈ authority, r.ttl ≤ x) := by grind
    rw [hneg, hcases _ _ (hnonneg r hr) fun hx => ⟨r, hr, hx⟩]
    simp

/-- What keeps an entry from living longer than `x`: a TTL of the answer or authority section (a minute if both are
empty), a limit, or the minimum of the first SOA of a negative response. -/
def LivesWithin (maxNegTTL maxPosTTL : Duration) (resp : Message) (x : Duration) : Prop :=
  (∃ r ∈ resp.answers ++ resp.authorities, r.ttl ≤ x) ∨
  (resp.answers = [] ∧ resp.authorities = [] ∧ 60 * second ≤ x) ∨
  if resp.answers = [] then
    0 < maxNegTTL ∧ maxNegTTL ≤ x ∨
      ∃ soa, resp.authorities.findSome? soaOf = some soa ∧ 0 < soa.minimum ∧ soa.minimum ≤ x
  else 0 < maxPosTTL ∧ maxPosTTL ≤ x

theorem responseTTL_le_iff {maxNegTTL maxPosTTL : Duration} {resp : Message}
    (hnonneg : ∀ r ∈ resp.answers ++ resp.authorities, 0 ≤ r.ttl) {x : Duration} :
    responseTTL maxNegTTL maxPosTTL resp ≤ x ↔ LivesWithin maxNegTTL maxPosTTL resp x := by
  obtain ⟨hmin, hmin'⟩ := minTTL_spec hnonneg (show (0 : Int) ≤ 60 * second by decide)
  by_cases hanswers : resp.answers = []
  · rw [hanswers, nil_append] at hnonneg hmin hmin'
    obtain ⟨hcap, hcap'⟩ := @capTTL_spec (negativeCacheTTL resp.authorities) _ hmin
    rw [responseTTL, if_pos (by rw [hanswers]; rfl), hanswers, nil_append, (capTTL_spec hcap).2, hcap', hmin',
      or_left_comm (b := resp.authorities = [] ∧ 60 * second ≤ x), negativeCacheTTL_le_iff hnonneg]
    simp only [LivesWithin, hanswers, nil_append, if_true, true_and]
    grind
  · rw [responseTTL, if_neg (by simpa using hanswers), (capTTL_spec hmin).2, hmin']
    simp only [LivesWithin, hanswers, if_false, append_eq_nil_iff, false_and, false_or]
    exact or_comm

end Negative

/-! ### Runs of the cache -/

/-- A call on the cache. -/
inductive CacheAction where
  | put (k : CacheKey) (e : Entry) (now : Int)
  | get (k : CacheKey) (now : Int)

namespace MemoryCache

variable {cfg : MemoryCacheConfig} {c : MemoryCache} {k : CacheKey} {e e' hit : Entry} {actions : List CacheAction}
  {now : Int}

def step (cfg : MemoryCacheConfig) (c : MemoryCache) : CacheAction → MemoryCache
  | .put k e now => c.put cfg k e now
  | .get k now => (c.get k now).2

def run (cfg : MemoryCacheConfig) (c : MemoryCache) (actions : List CacheAction) : MemoryCache :=
  actions.foldl (step cfg) c

/-- The calls do not store under the key. -/
def Leaves (k : CacheKey) (actions : List CacheAction) : Prop := ∀ e now, .put k e now ∉ actions

theorem lookup_of_lookup_step {action : CacheAction} (haction : ∀ e now, action ≠ .put k e now)
    (h : (step cfg c action).entries.lookup k = some e) : c.entries.lookup k = some e := by
  cases action with
  | put k' e' now =>
    refine lookup_of_lookup_put ?_ h
    rintro rfl
    exact haction e' now rfl
  | get k' now => exact lookup_of_lookup_get h

theorem lookup_of_lookup_run (hactions : Leaves k actions) (h : (run cfg c actions).entries.lookup k = some e) :
    c.entries.lookup k = some e := by
  induction actions generalizing c with
  | nil => exact h
  | cons action actions ih =>
    refine lookup_of_lookup_step (fun e' now heq => ?_) (ih (fun e' now hmem => ?_) h)
    · exact hactions e' now (heq ▸ (.head _))
    · exact hactions e' now (.tail _ hmem)

/-- Each record shown has lost at least the time elapsed. -/
def Ages (elapsed : Duration) (kept shown : List Record) : Prop :=
  ∀ (i : Nat) (r' : Record), shown[i]? = some r' →
    ∃ r, kept[i]? = some r ∧ r' = { r with ttl := r'.ttl } ∧ r'.ttl ≤ r.ttl - elapsed

theorem ages_cloneRecordsWithTTL {kept : List Record} {n : Nat} {elapsed remaining : Duration} :
    Ages elapsed kept (cloneRecordsWithTTL (kept.take n) remaining) ↔ ∀ r ∈ kept.take n, remaining ≤ r.ttl - elapsed := by
  have hclone : ∀ i : Nat, (cloneRecordsWithTTL (kept.take n) remaining)[i]? =
      (kept.take n)[i]?.map fun r => newRecordClass r.name r.class_ remaining r.rd := fun i => List.getElem?_map
  have hkept : ∀ {i : Nat} {r : Record}, (kept.take n)[i]? = some r → kept[i]? = some r := by
    intro i r hr
    rw [List.getElem?_take] at hr
    split at hr
    · exact hr
    · cases hr
  constructor
  · intro hages r hr
    obtain ⟨i, hi⟩ := mem_iff_getElem?.mp hr
    obtain ⟨r₀, hr₀, -, hle⟩ := hages i _ (by rw [hclone, hi, Option.map_some])
    cases (hkept hi).symm.trans hr₀
    exact hle
  · intro hle i r' hr'
    rw [hclone] at hr'
    obtain ⟨r, hr, rfl⟩ := Option.map_eq_some_iff.mp hr'
    exact ⟨r, hkept hr, rfl, hle r (mem_of_getElem? hr)⟩

/-- Every section of the hit has aged. -/
structure EntryAges (elapsed : Duration) (e hit : Entry) : Prop where
  answer : Ages elapsed e.answer hit.answer
  authority : Ages elapsed e.authority hit.authority
  additional : Ages elapsed e.additional hit.additional

/-- Every later hit on the entry of a response that came at `t₀` shows its records no longer than they may live. -/
def NeverGrows (cfg : MemoryCacheConfig) (e : Entry) (t₀ : Int) : Prop :=
  ∀ (c : MemoryCache) (k : CacheKey) (stored : Int) (actions : List CacheAction) (t₁ : Int) (hit : Entry),
    Leaves k actions → t₀ ≤ t₁ → (((c.put cfg k e stored).run cfg actions).get k t₁).1 = some hit →
      EntryAges (t₁ - t₀) e hit

theorem capEntryRecords_additional (e : Entry) (limit : Nat) : (capEntryRecords e limit).additional =
    e.additional.take (limit - (e.answer.length + e.authority.length)) := by
  unfold capEntryRecords
  dsimp only
  split
  · exact (take_of_length_le (by omega)).symm
  · have hkept : e.additional.length - min e.additional.length
        (e.answer.length + e.authority.length + e.additional.length - limit) =
          limit - (e.answer.length + e.authority.length) := by omega
    exact congrArg e.additional.take hkept

theorem eq_of_hit {stored t₁ : Int} (hactions : Leaves k actions)
    (h : (((c.put cfg k e stored).run cfg actions).get k t₁).1 = some hit) :
    hit = cloneEntryWithTTL (capped cfg e) (e.expiresAt - t₁) := by
  grind [get_eq_some, lookup_of_lookup_run, lookup_put, capped_expiresAt]

end MemoryCache

namespace Resolver

open MemoryCache

variable {Idx : Type}

/-- The additional records that go into the cache: those in bailiwick, as far as the limit on the records of an entry
leaves room for them. -/
def cachedGlue (cfg : Config Idx) (qname : Name) (resp : Message) : List Record :=
  let kept := bailiwickFilter qname resp
  if cfg.cache.maxRecordsPerEntry > 0 then
    kept.2.2.take (cfg.cache.maxRecordsPerEntry - (kept.1.length + kept.2.1.length))
  else kept.2.2

section

variable {cfg : Config Idx} {qname : Name} {resp : Message} {t₀ t₁ : Int} {r : Record}

theorem mem_of_mem_entry :
    (r ∈ (entryFromResponse cfg qname resp t₀).answer → r ∈ resp.answers) ∧
      (r ∈ (entryFromResponse cfg qname resp t₀).authority → r ∈ resp.authorities) ∧
      (r ∈ (entryFromResponse cfg qname resp t₀).additional → r ∈ resp.additionals) :=
  ⟨mem_of_mem_filter, mem_of_mem_filter, mem_of_mem_filter⟩

theorem capped_additional :
    (capped cfg.cache (entryFromResponse cfg qname resp t₀)).additional = cachedGlue cfg qname resp := by
  unfold capped cachedGlue
  split
  · exact capEntryRecords_additional _ _
  · rfl

theorem left_le_iff : (entryFromResponse cfg qname resp t₀).expiresAt - t₁ ≤ r.ttl - (t₁ - t₀) ↔
    responseTTL cfg.maxNegTTL cfg.maxPosTTL resp ≤ r.ttl := by
  grind [entryFromResponse]

theorem hit_at_once (k : CacheKey) (hlife : 0 < responseTTL cfg.maxNegTTL cfg.maxPosTTL resp) :
    ((((MemoryCache.empty.put cfg.cache k (entryFromResponse cfg qname resp t₀) t₀).run cfg.cache []).get k t₀).1 =
      some (cloneEntryWithTTL (capped cfg.cache (entryFromResponse cfg qname resp t₀))
        ((entryFromResponse cfg qname resp t₀).expiresAt - t₀))) := by
  have hexpires : t₀ < (capped cfg.cache (entryFromResponse cfg qname resp t₀)).expiresAt := by
    rw [capped_expiresAt]
    exact Int.lt_add_of_pos_right t₀ hlife
  rw [MemoryCache.run, foldl_nil, get_of_lookup lookup_put hexpires, capped_expiresAt]

end

/-- **TTLs do not grow.** No record is shown longer than it may live exactly if the entry lives no longer than the
additional records that are cached with it. -/
theorem neverGrows_iff {buf : Bytes} {resp : Message} (hreceived : Message.unpack buf = .ok resp) (cfg : Config Idx)
    (qname : Name) (t₀ : Int) :
    NeverGrows cfg.cache (entryFromResponse cfg qname resp t₀) t₀ ↔
      ∀ r ∈ cachedGlue cfg qname resp, LivesWithin cfg.maxNegTTL cfg.maxPosTTL resp r.ttl := by
  have hnonneg := ttl_nonneg_of_sent (Message.normal_of_unpack hreceived).2
  have hlives {x : Duration} : responseTTL cfg.maxNegTTL cfg.maxPosTTL resp ≤ x ↔ _ :=
    responseTTL_le_iff fun r hr => hnonneg r (mem_append_left _ hr)
  have hle : ∀ r ∈ resp.answers ++ resp.authorities, responseTTL cfg.maxNegTTL cfg.maxPosTTL resp ≤ r.ttl :=
    fun r hr => hlives.mpr (.inl ⟨r, hr, Int.le_refl _⟩)
  obtain ⟨n, n', n'', hcapped⟩ := @capped_eq cfg.cache (entryFromResponse cfg qname resp t₀)
  simp only [← hlives, ← @capped_additional Idx cfg qname resp t₀, hcapped]
  constructor
  · intro hgrows r hr
    by_cases hlife : 0 < responseTTL cfg.maxNegTTL cfg.maxPosTTL resp
    · have hages := (hgrows _ (key qname RRClass.classIN .a) t₀ [] t₀ _ (fun e now => not_mem_nil) (Int.le_refl t₀)
        (hit_at_once _ hlife)).additional
      rw [hcapped] at hages
      exact left_le_iff.mp (ages_cloneRecordsWithTTL.mp hages r hr)
    · have hmem := mem_of_mem_entry.2.2 (mem_of_mem_take hr)
      exact Int.le_trans (Int.not_lt.mp hlife) (hnonneg r (mem_append_right _ hmem))
  · intro hadditional c k stored actions t₁ hit hactions _ hhit
    rw [eq_of_hit hactions hhit, hcapped]
    refine ⟨ages_cloneRecordsWithTTL.mpr fun r hr => left_le_iff.mpr (hle r ?_),
      ages_cloneRecordsWithTTL.mpr fun r hr => left_le_iff.mpr (hle r ?_),
      ages_cloneRecordsWithTTL.mpr fun r hr => left_le_iff.mpr (hadditional r hr)⟩
    · exact mem_append_left _ (mem_of_mem_entry.1 (mem_of_mem_take hr))
    · exact mem_append_right _ (mem_of_mem_entry.2.1 (mem_of_mem_take hr))

def glueConfig : Config Unit := .new ⟨fun _ _ _ _ => none, fun _ _ _ _ => none, fun _ _ _ => ()⟩ none oneShard

/-- A response with the answer and the name server of `a.` for an hour and the server's address for a time of its
own. -/
def glueBytes (high low : UInt8) : Bytes :=
  [0, 0, 0x84, 0, 0, 0, 0, 1, 0, 1, 0, 1] ++ ([1, 0x61, 0, 0, 1, 0, 1, 0, 0, 0x0e, 0x10, 0, 4, 192, 0, 2, 1] ++
    [1, 0x61, 0, 0, 2, 0, 1, 0, 0, 0x0e, 0x10, 0, 5, 1, 0x62, 1, 0x61, 0] ++
    [1, 0x62, 1, 0x61, 0, 0, 1, 0, 1, 0, 0, high, low, 0, 4, 192, 0, 2, 2])

def glueResponse (high low : UInt8) : Message :=
  (Message.unpack (glueBytes high low)).toOption.getD ⟨0, 0, [], [], [], [], none⟩

open Name.Short in
/-- With an address for an hour too, nothing grows. -/
theorem neverGrows_of_glue :
    (cachedGlue glueConfig a (glueResponse 0x0e 0x10)).map Record.ttl = [3600 * second] ∧
    NeverGrows glueConfig.cache (entryFromResponse glueConfig a (glueResponse 0x0e 0x10) 0) 0 := by
  refine ⟨by decide +kernel, ?_⟩
  have hunpack : Message.unpack (glueBytes 0x0e 0x10) = .ok (glueResponse 0x0e 0x10) := by decide +kernel
  have hhour : ∀ r ∈ cachedGlue glueConfig a (glueResponse 0x0e 0x10),
      ∃ r' ∈ (glueResponse 0x0e 0x10).answers, r'.ttl ≤ r.ttl := by decide +kernel
  refine (neverGrows_iff hunpack glueConfig a 0).mpr fun r hr => .inl ?_
  obtain ⟨r', hr', hle⟩ := hhour r hr
  exact ⟨r', mem_append_left _ hr', hle⟩

open Name.Short in
/-- An address for a minute is shown with the TTL of an hour. -/
theorem grows_of_glue :
    Message.unpack (glueBytes 0 0x3c) = .ok (glueResponse 0 0x3c) ∧
    (entryFromResponse glueConfig a (glueResponse 0 0x3c) 0).additional.map Record.ttl = [60 * second] ∧
    (((MemoryCache.empty.put glueConfig.cache (key a 1 .a) (entryFromResponse glueConfig a (glueResponse 0 0x3c) 0) 0).run
      glueConfig.cache []).get (key a 1 .a) 0).1.map (fun hit => hit.additional.map Record.ttl) = some [3600 * second] := by
  decide +kernel

/-! ### Negative entries -/

/-- A negative entry keeps the limit always, and the bound of an SOA exactly if a record, the limit or the first SOA's
minimum, unless that is zero, does. -/
theorem negativeEntry_bounded_iff {buf : Bytes} {resp : Message} (hreceived : Message.unpack buf = .ok resp)
    (hanswers : resp.answers = []) {r : Record} {soa : SOA} (hr : r ∈ resp.authorities) (hsoa : soaOf r = some soa)
    (cfg : Config Idx) (qname : Name) (now : Int) :
    (0 < cfg.maxNegTTL → (entryFromResponse cfg qname resp now).expiresAt - now ≤ cfg.maxNegTTL) ∧
    ((entryFromResponse cfg qname resp now).expiresAt - now ≤ min r.ttl soa.minimum ↔
      0 < cfg.maxNegTTL ∧ cfg.maxNegTTL ≤ soa.minimum ∨
        (∃ first, resp.authorities.findSome? soaOf = some first ∧ 0 < first.minimum ∧ first.minimum ≤ soa.minimum) ∨
          ∃ r' ∈ resp.authorities, r'.ttl ≤ soa.minimum) := by
  have hnonneg : ∀ r ∈ resp.authorities, 0 ≤ r.ttl := fun r hr =>
    ttl_nonneg_of_sent (Message.normal_of_unpack hreceived).2 r (mem_append_left _ (mem_append_right _ hr))
  obtain ⟨first, hfirst⟩ : ∃ first, resp.authorities.findSome? soaOf = some first :=
    Option.isSome_iff_exists.mp (findSome?_isSome_iff.mpr ⟨r, hr, by rw [hsoa]; rfl⟩)
  have hlife : (entryFromResponse cfg qname resp now).expiresAt - now = responseTTL cfg.maxNegTTL cfg.maxPosTTL resp :=
    have harith : ∀ n d : Int, n + d - n = d := by omega
    harith _ _
  have hle {x : Duration} : responseTTL cfg.maxNegTTL cfg.maxPosTTL resp ≤ x ↔ (∃ r ∈ resp.authorities, r.ttl ≤ x) ∨
      0 < cfg.maxNegTTL ∧ cfg.maxNegTTL ≤ x ∨ 0 < first.minimum ∧ first.minimum ≤ x := by
    rw [responseTTL_le_iff (by rwa [hanswers])]
    simp [LivesWithin, hanswers, hfirst, ne_nil_of_mem hr]
  rw [hlife]
  refine ⟨fun hpos => hle.mpr (.inr (.inl ⟨hpos, Int.le_refl _⟩)), ?_⟩
  rw [Int.le_min, and_iff_right (hle.mpr (.inl ⟨r, hr, Int.le_refl _⟩)), hle, hfirst]
  simp [or_comm, or_assoc]

def soaBytes (minimum : UInt8) : Bytes :=
  [0, 0, 0x84, 0, 0, 0, 0, 0, 0, 1, 0, 0] ++ ([1, 0x61, 0, 0, 6, 0, 1, 0, 0, 0x0e, 0x10, 0, 22, 0, 0] ++
    replicate 19 0 ++ [minimum])

def soaResponse (minimum : UInt8) : Message :=
  (Message.unpack (soaBytes minimum)).toOption.getD ⟨0, 0, [], [], [], [], none⟩

open Name.Short in
/-- A minimum of a second bounds the lifetime, as the limit does. -/
theorem negativeEntry_bounded_of_soa :
    (entryFromResponse glueConfig a (soaResponse 1) 0).expiresAt - 0 ≤ glueConfig.maxNegTTL ∧
    (entryFromResponse glueConfig a (soaResponse 1) 0).expiresAt - 0 ≤ min (3600 * second) second := by
  have hunpack : Message.unpack (soaBytes 1) = .ok (soaResponse 1) := by decide +kernel
  have hbounded := negativeEntry_bounded_iff hunpack (by decide +kernel)
    (r := ⟨a, 1, 3600 * second, .soa ⟨.root, .root, 0, 0, 0, 0, second⟩⟩) (by decide +kernel) rfl glueConfig a 0
  have hfirst : (soaResponse 1).authorities.findSome? soaOf = some ⟨.root, .root, 0, 0, 0, 0, second⟩ := by decide +kernel
  exact ⟨hbounded.1 (by decide), hbounded.2.mpr (.inr (.inl ⟨_, hfirst, by decide, by decide⟩))⟩

open Name.Short in
/-- With the minimum zero the entry lives for the TTL of the SOA. -/
theorem negativeEntry_unbounded : Message.unpack (soaBytes 0) = .ok (soaResponse 0) ∧ (soaResponse 0).answers = [] ∧
    (soaResponse 0).authorities.map (fun r => (r.ttl, (soaOf r).map SOA.minimum)) = [(3600 * second, some 0)] ∧
    (entryFromResponse glueConfig a (soaResponse 0) 0).expiresAt = 3600 * second := by
  decide +kernel

end Resolver

end Acidns.Recursive
