import Acidns.Lib.Table
import Acidns.Wire.RData.Basic

/-!
# Replayed packets

`dnscrypt/replay.go`: a cache of the pairs of client key and nonce that have been seen. A full cache is swept and, if
that is not enough, loses its oldest entry. The search for that entry goes over the map in any order and starts at the
time of the call, so it finds none among entries of the same instant.
-/

namespace Acidns.Dnscrypt

open List

open Decoder (FixedBytes)

structure ReplayCache where
  entries : Table Bytes Int
  window : Duration
  max : Int

def newReplayCache (window : Duration) (maxEntries : Int) : ReplayCache := ⟨∅, window, maxEntries⟩

/-- The loop that looks for the oldest entry. -/
def oldestKey : List (Σ _ : Bytes, Int) → (oldest : Int) → (key : Bytes) → Bytes
  | [], _, key => key
  | e :: entries, oldest, key => if e.2 < oldest then oldestKey entries e.2 e.1 else oldestKey entries oldest key

def zeroKey : Bytes := replicate 44 0

/-- A call of `Seen`, with the order in which its loop visits the map. -/
structure Call where
  clientPK : FixedBytes 32
  nonce : FixedBytes 12
  now : Int
  order : Table.Order Bytes Int

def Call.key (a : Call) : Bytes := a.clientPK.val ++ a.nonce.val

namespace ReplayCache

def sweep (c : ReplayCache) (now : Int) : Table Bytes Int := Table.filter (fun _ t => now - c.window < t) c.entries

def makeRoom (c : ReplayCache) (now : Int) (order : Table.Order Bytes Int) : Table Bytes Int :=
  if c.max ≤ c.entries.size then
    if c.max ≤ (c.sweep now).size then
      (c.sweep now).erase (oldestKey (order.visit (c.sweep now).entries) now zeroKey)
    else c.sweep now
  else c.entries

def seen (c : ReplayCache) (a : Call) : Bool × ReplayCache :=
  if (c.entries.lookup a.key).any (a.now - c.window < ·) then (true, c)
  else (false, { c with entries := (c.makeRoom a.now a.order).insert a.key a.now })

/-! ### Runs -/

/-- A call that finds the cache full and leaves the entry of a pair out of it. -/
def Evicts (c : ReplayCache) (a : Call) (k : Bytes) : Prop :=
  c.max ≤ c.entries.size ∧ k ∈ c.entries ∧ k ∉ (c.seen a).2.entries

/-- The pairs that were recorded and not evicted since, each with the time of the record. -/
def hold (c : ReplayCache) (held : Bytes → Int → Prop) (a : Call) (k : Bytes) (t : Int) : Prop :=
  ((c.seen a).1 = false ∧ k = a.key ∧ t = a.now) ∨ (held k t ∧ ¬c.Evicts a k)

/-- The bound is kept, and the pairs that are found are those recorded within the window and not evicted since. -/
def Conforms (c : ReplayCache) (held : Bytes → Int → Prop) : List Call → Prop
  | [] => True
  | a :: calls => ((c.seen a).2.entries.size ≤ c.max ∧
      ((c.seen a).1 = true ↔ ∃ t, held a.key t ∧ a.now - c.window < t)) ∧ (c.seen a).2.Conforms (c.hold held a) calls

/-- The cache is full of pairs of the instant of the call, none of them the pair of the call or the zero key. -/
def Saturated (c : ReplayCache) (a : Call) : Prop :=
  a.key ∉ c.sweep a.now ∧ c.max ≤ (c.sweep a.now).size ∧ (∀ e ∈ (c.sweep a.now).entries, a.now ≤ e.2) ∧
    zeroKey ∉ c.sweep a.now

def NeverSaturated (c : ReplayCache) : List Call → Prop
  | [] => True
  | a :: calls => ¬c.Saturated a ∧ (c.seen a).2.NeverSaturated calls

variable {c : ReplayCache} {a : Call} {k : Bytes} {t : Int} {held : Bytes → Int → Prop} {calls : List Call} {last : Int}

theorem seen_true_iff : (c.seen a).1 = true ↔ ∃ t, c.entries.lookup a.key = some t ∧ a.now - c.window < t := by
  rw [seen]
  split <;> simp_all [Option.any_eq_true]

theorem mem_sweep_iff :
    a.key ∈ c.sweep a.now ↔ (c.entries.lookup a.key).any (a.now - c.window < ·) = true := by
  rw [← AList.lookup_isSome, Option.isSome_iff_exists]
  simp [sweep, Table.lookup_filter_eq_some, Option.any_eq_true]

theorem max_seen : (c.seen a).2.max = c.max := by
  rw [seen]
  split <;> rfl

theorem lookup_of_makeRoom (h : (c.makeRoom a.now a.order).lookup k = some t) : c.entries.lookup k = some t := by
  have hsweep : ∀ {t}, (c.sweep a.now).lookup k = some t → c.entries.lookup k = some t :=
    fun h => (Table.lookup_filter_eq_some.mp h).1
  unfold makeRoom at h
  split at h
  · split at h
    · exact hsweep (Table.lookup_of_lookup_erase h)
    · exact hsweep h
  · exact h

/-- What is in the cache is what is held, at the time of the last record. -/
structure Holds (c : ReplayCache) (held : Bytes → Int → Prop) (last : Int) : Prop where
  sound : ∀ {k t}, c.entries.lookup k = some t → held k t ∧ t ≤ last
  complete : ∀ {k t}, held k t → ∃ t', t ≤ t' ∧ c.entries.lookup k = some t'

theorem Holds.step (h : c.Holds held last) (hle : last ≤ a.now) : (c.seen a).2.Holds (c.hold held a) a.now := by
  cases hanswer : (c.seen a).1 with
  | true =>
    have hsame : (c.seen a).2 = c := by
      rw [seen] at hanswer ⊢
      split <;> simp_all
    have hkept : ∀ k, ¬c.Evicts a k := fun k hevicts => hevicts.2.2 (hsame.symm ▸ hevicts.2.1)
    have hhold : c.hold held a = held := by
      funext k t
      simp [hold, hanswer, hkept]
    rw [hsame, hhold]
    exact ⟨fun hk => ⟨(h.sound hk).1, Int.le_trans (h.sound hk).2 hle⟩, h.complete⟩
  | false =>
    have hentries : (c.seen a).2.entries = (c.makeRoom a.now a.order).insert a.key a.now := by
      rw [seen] at hanswer ⊢
      split <;> simp_all
    have hlookup : ∀ k, (c.seen a).2.entries.lookup k =
        if k = a.key then some a.now else (c.makeRoom a.now a.order).lookup k :=
      fun k => hentries ▸ Table.lookup_insert_eq
    constructor
    · intro k t hk
      have hmem := Table.mem_of_lookup hk
      rw [hlookup] at hk
      split at hk
      · next heq => exact ⟨.inl ⟨hanswer, heq, (Option.some.inj hk).symm⟩, (Option.some.inj hk).ge⟩
      · obtain ⟨hheld, ht⟩ := h.sound (lookup_of_makeRoom hk)
        exact ⟨.inr ⟨hheld, fun hevicts => hevicts.2.2 hmem⟩, Int.le_trans ht hle⟩
    · rintro k t (⟨-, rfl, rfl⟩ | ⟨hheld, hkept⟩)
      · exact ⟨_, Int.le_refl _, by rw [hlookup, if_pos rfl]⟩
      · obtain ⟨t', hle', hk⟩ := h.complete hheld
        by_cases heq : k = a.key
        · exact ⟨_, Int.le_trans hle' (Int.le_trans (h.sound hk).2 hle), by rw [hlookup, if_pos heq]⟩
        · refine ⟨t', hle', ?_⟩
          by_cases hfull : c.max ≤ c.entries.size
          · have hin : k ∈ (c.seen a).2.entries := by
              by_contra hout
              exact hkept ⟨hfull, Table.mem_of_lookup hk, hout⟩
            obtain ⟨u, hu⟩ := Option.isSome_iff_exists.mp (AList.lookup_isSome.mpr hin)
            have hroom := hu
            rw [hlookup, if_neg heq] at hroom
            rw [hu, ← lookup_of_makeRoom hroom, hk]
          · rw [hlookup, if_neg heq, makeRoom, if_neg hfull, hk]

theorem Holds.answer (h : c.Holds held last) :
    (c.seen a).1 = true ↔ ∃ t, held a.key t ∧ a.now - c.window < t := by
  rw [seen_true_iff]
  constructor
  · rintro ⟨t, hk, ht⟩
    exact ⟨t, (h.sound hk).1, ht⟩
  · rintro ⟨t, hheld, ht⟩
    obtain ⟨t', hle, hk⟩ := h.complete hheld
    exact ⟨t', hk, Int.lt_of_lt_of_le ht hle⟩

/-! ### The bound -/

theorem oldestKey_of_le {entries : List (Σ _ : Bytes, Int)} {oldest : Int} {key : Bytes}
    (h : ∀ e ∈ entries, oldest ≤ e.2) : oldestKey entries oldest key = key := by
  induction entries with
  | nil => rfl
  | cons e entries ih =>
    obtain ⟨he, h⟩ := forall_mem_cons.mp h
    rw [oldestKey, if_neg (by omega), ih h]

theorem oldestKey_mem {entries : List (Σ _ : Bytes, Int)} {oldest : Int} {key : Bytes}
    (h : ¬∀ e ∈ entries, oldest ≤ e.2) : oldestKey entries oldest key ∈ entries.keys := by
  induction entries generalizing oldest key with
  | nil => exact absurd (forall_mem_nil _) h
  | cons e entries ih =>
    rw [oldestKey, keys_cons]
    split
    · by_cases hrest : ∀ e' ∈ entries, e.2 ≤ e'.2
      · rw [oldestKey_of_le hrest]
        exact .head _
      · exact .tail _ (ih hrest)
    · next hnew => exact .tail _ (ih fun hrest => h (forall_mem_cons.mpr ⟨by omega, hrest⟩))

/-- The bound is passed exactly by a call on a saturated cache. -/
theorem size_seen_le_iff (hsize : c.entries.size ≤ c.max) : (c.seen a).2.entries.size ≤ c.max ↔ ¬c.Saturated a := by
  have hsweep : (c.sweep a.now).size ≤ c.entries.size := length_filter_le _ _
  by_cases hnew : a.key ∈ c.sweep a.now
  · have hlive := mem_sweep_iff.mp hnew
    simp [Saturated, seen, hlive, hnew, hsize]
  · have hlive := mt mem_sweep_iff.mpr hnew
    have hgrows : ∀ t : Table Bytes Int, Table.size (t.insert a.key a.now) = Table.size (t.erase a.key) + 1 := fun _ => rfl
    simp only [Saturated, seen, hlive, hnew, not_false_iff, Bool.false_eq_true, if_false, true_and, hgrows]
    have hkey := Table.size_erase (c.makeRoom a.now a.order) a.key
    by_cases hstill : c.max ≤ (c.sweep a.now).size
    · -- the entry of the call is new, so there is room exactly if the search has found one to erase
      have hfull : c.max ≤ c.entries.size := by omega
      have hold := Table.size_erase (c.sweep a.now) (oldestKey (a.order.visit (c.sweep a.now).entries) a.now zeroKey)
      have hvisit : ∀ e, e ∈ a.order.visit (c.sweep a.now).entries ↔ e ∈ (c.sweep a.now).entries :=
        fun _ => (a.order.perm _).mem_iff
      rw [makeRoom, if_pos hfull, if_pos hstill, if_neg fun hmem => hnew (AList.mem_erase.mp hmem).2] at hkey
      rw [makeRoom, if_pos hfull, if_pos hstill]
      by_cases hsame : ∀ e ∈ (c.sweep a.now).entries, a.now ≤ e.2
      · rw [oldestKey_of_le fun e he => hsame e ((hvisit e).mp he)] at hold hkey ⊢
        by_cases hzero : zeroKey ∈ c.sweep a.now <;> simp only [hzero, if_true, if_false] at hold <;> grind
      · have hfound : oldestKey (a.order.visit (c.sweep a.now).entries) a.now zeroKey ∈ (a.order.visit _).keys :=
          oldestKey_mem fun h => hsame fun e he => h e ((hvisit e).mpr he)
        rw [if_pos (show _ ∈ c.sweep a.now from ((a.order.perm _).map _).mem_iff.mp hfound)] at hold
        grind
    · have hroom : (c.makeRoom a.now a.order).size < c.max := by
        unfold makeRoom
        grind
      grind

theorem Holds.conforms_iff (h : c.Holds held last) (hlast : ∀ a ∈ calls, last ≤ a.now)
    (hsorted : calls.Pairwise fun a b => a.now ≤ b.now) (hsize : c.entries.size ≤ c.max) :
    c.Conforms held calls ↔ c.NeverSaturated calls := by
  induction calls generalizing c held last with
  | nil => exact Iff.rfl
  | cons a calls ih =>
    obtain ⟨hle, hsorted⟩ := pairwise_cons.mp hsorted
    have hbound := @size_seen_le_iff c a hsize
    rw [Conforms, NeverSaturated, hbound, and_iff_left h.answer]
    refine and_congr_right fun hroom => ih (h.step (hlast a (.head _))) hle hsorted ?_
    rw [max_seen]
    exact hbound.mpr hroom

end ReplayCache

/-- **The bound on the cache.** What is found is always right. The bound is kept exactly if no new pair comes when the
cache is full of pairs of the same instant. -/
theorem seen_conforms_iff {window : Duration} {maxEntries : Int} {calls : List Call} (hmax : 1 ≤ maxEntries)
    (hsorted : calls.Pairwise fun a b => a.now ≤ b.now) :
    (newReplayCache window maxEntries).Conforms (fun _ _ => False) calls ↔
      (newReplayCache window maxEntries).NeverSaturated calls := by
  have hempty : ∀ last, (newReplayCache window maxEntries).Holds (fun _ _ => False) last := fun last =>
    ⟨fun h => absurd (Table.mem_of_lookup h) (AList.notMem_empty _), False.elim⟩
  have hsize : ((newReplayCache window maxEntries).entries.size : Int) ≤ maxEntries := Int.le_trans Int.one_nonneg hmax
  cases calls with
  | nil => exact Iff.rfl
  | cons a calls =>
    refine (hempty a.now).conforms_iff (forall_mem_cons.mpr ⟨Int.le_refl _, ?_⟩) hsorted hsize
    exact (pairwise_cons.mp hsorted).1

def pairAt (b : UInt8) (now : Int) : Call := ⟨⟨replicate 32 b, rfl⟩, ⟨replicate 12 b, rfl⟩, now, .stored⟩

theorem seen_conforms_later : (newReplayCache 10 1).Conforms (fun _ _ => False) [pairAt 1 0, pairAt 2 1] :=
  (seen_conforms_iff (by decide) (by decide)).mpr (by
    unfold ReplayCache.NeverSaturated ReplayCache.NeverSaturated ReplayCache.NeverSaturated ReplayCache.Saturated
    decide)

/-- Room for one pair: the second one of an instant does not drive the first one out. -/
theorem seen_sameInstant :
    (newReplayCache 10 1).max = 1 ∧
      ((((newReplayCache 10 1).seen (pairAt 1 0)).2).seen (pairAt 2 0)).2.entries.size = 2 := by
  decide

end Acidns.Dnscrypt
