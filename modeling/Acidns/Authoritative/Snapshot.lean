import Acidns.Lib.Store
import Acidns.Authoritative.Invariant

/-!
# Published zones

The zones of `authoritative/authoritative.go` and `authoritative/update.go` as they lie in memory. A
`*zoneIndex` leads to two maps, and one of them to slices of records whose arrays `applyUpdate` filters in
place and appends to. Readers keep pointers without a lock: what they see must not change, whichever arrays,
maps and structs later operations write to.
-/

namespace Acidns.Authoritative

open Store (Slice Backing Slack)

/-- A zone index as the heap has it: its maps by reference. -/
structure Index where
  origin : Name
  soaRec : Record
  byName : Nat
  namesExist : Nat

/-- The arrays and maps that zone indexes share. -/
structure Heap where
  arrays : Store (Backing Record)
  maps : Store (Table Bytes Slice)
  sets : Store (List Bytes)
  indexes : Store Index

namespace Heap

def byName (h : Heap) (p : Nat) : Table Bytes Slice := h.maps.get (h.indexes.get p).byName

/-- The value that a reader of the index sees. -/
def view (h : Heap) (p : Nat) : ZoneIndex :=
  let z := h.indexes.get p
  ⟨z.origin, z.soaRec, (h.byName p).mapValues h.arrays.read, h.sets.get z.namesExist⟩

/-! ### Writing to a zone -/

/-- `z.byName[k] = x`. -/
def setRecords (h : Heap) (p : Nat) (k : Bytes) (x : Slice) : Heap :=
  { h with maps := h.maps.write (h.indexes.get p).byName ((h.byName p).insert k x) }

def deleteRecords (h : Heap) (p : Nat) (k : Bytes) : Heap :=
  { h with maps := h.maps.write (h.indexes.get p).byName ((h.byName p).erase k) }

def setSOA (h : Heap) (p : Nat) (rec : Record) : Heap :=
  { h with indexes := h.indexes.write p { h.indexes.get p with soaRec := rec } }

def markExists (h : Heap) (p : Nat) (name : Name) : Heap :=
  let z := h.indexes.get p
  { h with sets := h.sets.write z.namesExist (keysUpTo z.origin name ++ h.sets.get z.namesExist) }

def newIndex (h : Heap) (origin : Name) (soaRec : Record) (byName : Table Bytes Slice) (namesExist : List Bytes) : Heap :=
  ⟨h.arrays, h.maps.alloc byName, h.sets.alloc namesExist, h.indexes.alloc ⟨origin, soaRec, h.maps.next, h.sets.next⟩⟩

def copyRecords (e : Σ _ : Bytes, Slice) (out : Store (Backing Record) × Table Bytes Slice) :
    Store (Backing Record) × Table Bytes Slice :=
  (out.1.alloc ⟨out.1.read e.2, e.2.len⟩, out.2.insert e.1 ⟨out.1.next, e.2.len⟩)

/-- The clone is at `h.indexes.next`. A loop over a map visits it in any order, here from the end. -/
def clone (h : Heap) (p : Nat) : Heap :=
  let z := h.indexes.get p
  let (arrays, byName) := (h.byName p).entries.foldr copyRecords (h.arrays, ∅)
  { h with arrays := arrays }.newIndex z.origin z.soaRec byName (h.sets.get z.namesExist)

section

variable (slack : Slack)

def append (h : Heap) (p : Nat) (rec : Record) : Heap :=
  let (arrays, x) := Store.append slack h.arrays ((h.byName p).lookup (nameKey rec.name)) rec
  { h with arrays := arrays }.setRecords p (nameKey rec.name) x

/-- The loop that drops records from `recs[:0]` on; it writes the array also if nothing is dropped. -/
def drop (h : Heap) (p : Nat) (name : Name) (recs : Slice) (matches_ : Record → Bool) : Heap × Bool :=
  let (arrays, kept, removed) := Store.filterInPlace slack (fun r => !matches_ r) h.arrays recs
  let h := { h with arrays := arrays }
  if !removed then (h, false)
  else if kept.len = 0 then (h.deleteRecords p (nameKey name), true)
  else (h.setRecords p (nameKey name) kept, true)

def deleteRRset (h : Heap) (p : Nat) (name : Name) (t : RRType) : Heap × Bool :=
  match (h.byName p).lookup (nameKey name) with
  | none => (h, false)
  | some recs =>
    if name.equal (h.view p).origin ∧ (ZoneIndex.isSOAOrNS t ∨ t = .any) then
      if t = .any then h.drop slack p name recs fun r => !ZoneIndex.isSOAOrNS r.type else (h, false)
    else if t = .any then (h.deleteRecords p (nameKey name), true)
    else h.drop slack p name recs fun r => r.type = t

def deleteRecord (h : Heap) (p : Nat) (name : Name) (target : RData) : Heap × Bool :=
  match (h.byName p).lookup (nameKey name) with
  | none => (h, false)
  | some recs =>
    if name.equal (h.view p).origin ∧ ZoneIndex.isSOAOrNS target.type then (h, false)
    else h.drop slack p name recs fun r => r.type = target.type && rdataEqual r.rd target

/-- The records at the apex without an SOA, and then `stored`. -/
def replaceApexSOA (arrays : Store (Backing Record)) (stored : Record) : Option Slice → Store (Backing Record) × Slice
  | none => Store.append slack arrays none stored
  | some recs =>
    let (arrays, out, _) := Store.filterInPlace slack (fun r => r.type ≠ .soa) arrays recs
    Store.append slack arrays (some out) stored

def addRecord (h : Heap) (p : Nat) (u : Record) : Heap × Bool :=
  let stored := newRecord u.name u.ttl u.rd
  if ((h.view p).recordsAt u.name).any fun r => r.type = u.type && r.ttl = u.ttl && rdataEqual r.rd u.rd then (h, false)
  else if u.name.equal (h.view p).origin ∧ u.type = .soa then
    let (arrays, out) := replaceApexSOA slack h.arrays stored ((h.byName p).lookup (nameKey u.name))
    ((({ h with arrays := arrays }.setRecords p (nameKey u.name) out).setSOA p stored).markExists p u.name, true)
  else ((h.append slack p stored).markExists p u.name, true)

def applyUpdate (h : Heap) (p : Nat) (u : Record) : Heap × Bool :=
  if u.class_ = RRClass.classANY then h.deleteRRset slack p u.name u.type
  else if u.class_ = RRClass.classNONE then h.deleteRecord slack p u.name u.rd
  else h.addRecord slack p u

def applyUpdates (h : Heap) (p : Nat) (updates : List Record) : Heap × Bool :=
  updates.foldl (fun (h, changed) u => let (h', c) := h.applyUpdate slack p u; (h', changed || c)) (h, false)

def bumpSOA (h : Heap) (p : Nat) : Heap :=
  let z := h.view p
  match z.soaRec.asSOA with
  | none => h
  | some soa =>
    match ZoneIndex.bumpedSOA soa with
    | .error _ => h
    | .ok bumped =>
      let newRec := newRecord z.soaRec.name z.soaRec.ttl (.soa bumped)
      let recs := z.recordsAt z.origin
      let (arrays, out) := Store.fill slack h.arrays recs.length (ZoneIndex.replaceSOA newRec recs)
      { h with arrays := arrays }.setSOA p newRec |>.setRecords p (nameKey z.origin) out

end

def rebuildNamesExist (h : Heap) (p : Nat) : Heap :=
  { h with
    sets := h.sets.alloc (h.view p).rebuildNamesExist.namesExist
    indexes := h.indexes.write p { h.indexes.get p with namesExist := h.sets.next } }

/-- The index that `AddZone` and `ReloadZone` build, at the address `h.indexes.next`. -/
def indexZone (slack : Slack) (h : Heap) (z : Zone) : Except AddZoneError Heap :=
  match z.soa with
  | none => .error (.noSOA z.origin)
  | some soaRec =>
    if z.records.any fun r => r.name.equal z.origin && isCNAMEOrDNAME r.type then
      .error (.apexCNAMEOrDNAME z.origin)
    else
      .ok (z.records.foldl (fun g rec => (g.append slack h.indexes.next rec).markExists h.indexes.next rec.name)
        (h.newIndex z.origin soaRec ∅ []))

end Heap

/-! ### The server at work -/

/-- The server with its heap. -/
structure Shared where
  heap : Heap
  zones : Table Bytes Nat
  waiting : List (Name × Message)
  served : List Served

namespace Shared

/-- The zones that queries see. -/
def published (s : Shared) : Zones := s.zones.mapValues s.heap.view

def view (s : Shared) : State := ⟨s.published, s.waiting, s.served⟩

/-- Nothing is in memory; `blank` stands for what is at addresses that are not in use. -/
def initial (blank : Index) : Shared := ⟨⟨⟨0, fun _ => ⟨[], 0⟩⟩, ⟨0, fun _ => ∅⟩, ⟨0, fun _ => []⟩, ⟨0, fun _ => blank⟩⟩, ∅, [], []⟩

/-- What happens under the write lock: a clone is changed and takes the place of the zone. -/
def commitUpdate (slack : Slack) (cfg : Config) (s : Shared) (zoneName : Name) (q : Message) : Heap × Table Bytes Nat × Served :=
  match s.zones.lookup (nameKey zoneName), checkUpdate s.published zoneName q with
  | none, _ => (s.heap, s.zones, .refused q .notAuth)
  | some _, .error rcode => (s.heap, s.zones, .refused q rcode)
  | some p, .ok _ =>
    let newZone := s.heap.indexes.next
    let (h, changed) := (s.heap.clone p).applyUpdates slack newZone q.authorities
    let oldSerial := (h.view newZone).serial.getD 0
    let h := if changed then (h.bumpSOA slack newZone).rebuildNamesExist newZone else h
    let newSerial := if changed then (h.view newZone).serial.getD oldSerial else oldSerial
    let notice := if changed && cfg.onUpdate then some ⟨zoneName, oldSerial, newSerial⟩ else none
    (h, s.zones.insert (nameKey zoneName) newZone, ⟨.noError, updateReply q .noError, changed, notice⟩)

def step (slack : Slack) (cfg : Config) (s : Shared) : Action → Option Shared
  | .load z =>
    match s.heap.indexZone slack z with
    | .error _ => some s
    | .ok h => some { s with heap := h, zones := s.zones.insert (nameKey z.origin) s.heap.indexes.next }
  | .receive policy q =>
    match admitUpdate cfg policy s.published q with
    | .error rcode => some { s with served := .refused q rcode :: s.served }
    | .ok zoneName => some { s with waiting := (zoneName, q) :: s.waiting }
  | .commit i => do
    let (zoneName, q) ← s.waiting[i]?
    let (heap, zones, served) := s.commitUpdate slack cfg zoneName q
    some ⟨heap, zones, s.waiting.eraseIdx i, served :: s.served⟩

def run (slack : Slack) (cfg : Config) : Shared → List Action → Option Shared
  | s, [] => some s
  | s, a :: actions => (s.step slack cfg a).bind fun s' => s'.run slack cfg actions

end Shared

/-! ### New memory -/

namespace Heap

section

variable {slack : Slack} {base h g : Heap} {p : Nat} {k k' : Bytes} {x y : Slice} {arrays : Store (Backing Record)}
  {recs : List Record} {name : Name}

/-- The objects of `h` are in `g` as they were. -/
structure Extends (h g : Heap) : Prop where
  arrays : h.arrays.Extends g.arrays
  maps : h.maps.Extends g.maps
  sets : h.sets.Extends g.sets
  indexes : h.indexes.Extends g.indexes

theorem Extends.refl (h : Heap) : h.Extends h := ⟨.refl _, .refl _, .refl _, .refl _⟩

theorem Extends.trans {f : Heap} (hg : h.Extends g) (hf : g.Extends f) : h.Extends f :=
  ⟨hg.arrays.trans hf.arrays, hg.maps.trans hf.maps, hg.sets.trans hf.sets, hg.indexes.trans hf.indexes⟩

/-- The references of the index lead into the heap. -/
structure Sound (h : Heap) (p : Nat) : Prop where
  index_lt : p < h.indexes.next
  map_lt : (h.indexes.get p).byName < h.maps.next
  set_lt : (h.indexes.get p).namesExist < h.sets.next
  valid : ∀ k x, (h.byName p).lookup k = some x → h.arrays.Valid x

section

variable (hg : h.Extends g) (hp : h.Sound p)

include hg hp

theorem Extends.byName_eq : g.byName p = h.byName p := by
  rw [byName, byName, hg.indexes.get_eq p hp.index_lt, hg.maps.get_eq _ hp.map_lt]

theorem Extends.view_eq : g.view p = h.view p := by
  have hrecords : (h.byName p).mapValues g.arrays.read = (h.byName p).mapValues h.arrays.read :=
    Table.mapValues_congr fun k x hx => hg.arrays.read (hp.valid k x hx)
  rw [view, view, hg.byName_eq hp, hrecords, hg.indexes.get_eq p hp.index_lt, hg.sets.get_eq _ hp.set_lt]

theorem Extends.sound : g.Sound p where
  index_lt := hp.index_lt.trans_le hg.indexes.next_le
  map_lt := by
    rw [hg.indexes.get_eq p hp.index_lt]
    exact hp.map_lt.trans_le hg.maps.next_le
  set_lt := by
    rw [hg.indexes.get_eq p hp.index_lt]
    exact hp.set_lt.trans_le hg.sets.next_le
  valid k x hx := by
    rw [hg.byName_eq hp] at hx
    exact hg.arrays.valid (hp.valid k x hx)

end

/-- The slices of a table lie in arrays that are new since `base`, each in one of its own. -/
structure Apart (base arrays : Store (Backing Record)) (t : Table Bytes Slice) : Prop where
  valid : ∀ k x, t.lookup k = some x → arrays.Valid x ∧ base.next ≤ x.addr
  separate : ∀ k k' x x', t.lookup k = some x → t.lookup k' = some x' → x.addr = x'.addr → k = k'

theorem Apart.empty {base : Store (Backing Record)} : Apart base arrays ∅ :=
  ⟨fun _ _ hx => (by cases hx), fun _ _ _ _ hx => (by cases hx)⟩

theorem Apart.insert {base : Store (Backing Record)} {t : Table Bytes Slice} (hy : arrays.Valid y ∧ base.next ≤ y.addr)
    (hvalid : ∀ k' x', t.lookup k' = some x' → k' ≠ k → arrays.Valid x' ∧ base.next ≤ x'.addr)
    (hapart : ∀ k' x', t.lookup k' = some x' → k' ≠ k → y.addr ≠ x'.addr)
    (hsep : ∀ k k' x x', t.lookup k = some x → t.lookup k' = some x' → x.addr = x'.addr → k = k') :
    Apart base arrays (t.insert k y) where
  valid k' x' hx' := by
    rw [Table.lookup_insert_eq] at hx'
    split at hx'
    · cases hx'
      exact hy
    · next hne => exact hvalid k' x' hx' hne
  separate k₁ k₂ x₁ x₂ h₁ h₂ haddr := by
    rw [Table.lookup_insert_eq] at h₁ h₂
    split at h₁ <;> split at h₂
    · next hk₁ hk₂ => exact hk₁.trans hk₂.symm
    · next hne =>
      cases h₁
      exact absurd haddr (hapart k₂ x₂ h₂ hne)
    · next hne _ =>
      cases h₂
      exact absurd haddr.symm (hapart k₁ x₁ h₁ hne)
    · exact hsep k₁ k₂ x₁ x₂ h₁ h₂ haddr

/-- The zone lies in memory that is new since `base`, each list in an array of its own: it may be written to. -/
structure Owns (base h : Heap) (p : Nat) : Prop extends Sound h p where
  since : base.Extends h
  index_new : base.indexes.next ≤ p
  map_new : base.maps.next ≤ (h.indexes.get p).byName
  set_new : base.sets.next ≤ (h.indexes.get p).namesExist
  array_new : ∀ k x, (h.byName p).lookup k = some x → base.arrays.next ≤ x.addr
  separate : ∀ k k' x x', (h.byName p).lookup k = some x → (h.byName p).lookup k' = some x' → x.addr = x'.addr → k = k'

section

variable (ho : base.Owns h p) (ht : h.arrays.Touches ((h.byName p).lookup k) arrays)

include ho ht

theorem Owns.get_other (hx : (h.byName p).lookup k' = some x) (hne : k' ≠ k) :
    arrays.get x.addr = h.arrays.get x.addr := by
  apply ht.frame _ (ho.valid k' x hx).addr_lt
  intro x₀ hx₀ haddr
  exact hne (ho.separate k' k x x₀ hx hx₀ haddr)

theorem Owns.valid_other (hx : (h.byName p).lookup k' = some x) (hne : k' ≠ k) :
    arrays.Valid x ∧ base.arrays.next ≤ x.addr :=
  ⟨(ho.valid k' x hx).congr ht.next_le (ho.get_other ht hx hne), ho.array_new k' x hx⟩

theorem Owns.extends_arrays : base.arrays.Extends arrays where
  next_le := ho.since.arrays.next_le.trans ht.next_le
  get_eq q hq := by
    rw [ht.frame q (hq.trans_le ho.since.arrays.next_le) ?_, ho.since.arrays.get_eq q hq]
    rintro x₀ hx₀ rfl
    exact absurd hq (Nat.not_lt.mpr (ho.array_new k x₀ hx₀))

theorem Owns.erase_records : AList.erase k ((h.byName p).mapValues arrays.read) = AList.erase k (h.view p).byName :=
  Table.erase_mapValues_congr fun _ _ hx hne => Store.read_congr (ho.get_other ht hx hne)

end

/-- A zone that may be written to shows `z`. -/
structure Shows (base : Heap) (p : Nat) (h : Heap) (z : ZoneIndex) : Prop where
  owns : base.Owns h p
  view_eq : h.view p = z

section

variable (ho : base.Owns h p)

include ho

theorem Owns.of_map {t : Table Bytes Slice} (hext : base.arrays.Extends arrays)
    (ht : Apart base.arrays arrays t) :
    Shows base p { h with arrays := arrays, maps := h.maps.write (h.indexes.get p).byName t }
      { h.view p with byName := t.mapValues arrays.read } := by
  have hby : ({ h with arrays := arrays, maps := h.maps.write (h.indexes.get p).byName t } : Heap).byName p = t :=
    Store.get_write_self ..
  refine ⟨⟨⟨ho.index_lt, ho.map_lt, ho.set_lt, ?_⟩, ⟨hext, ho.since.maps.write ho.map_new t, ho.since.sets, ho.since.indexes⟩,
    ho.index_new, ho.map_new, ho.set_new, ?_, ?_⟩, ?_⟩
  · rw [hby]
    exact fun k x hx => (ht.valid k x hx).1
  · rw [hby]
    exact fun k x hx => (ht.valid k x hx).2
  · rw [hby]
    exact ht.separate
  · rw [view, hby]
    rfl

theorem Owns.setRecords (hy : h.arrays.Yields ((h.byName p).lookup k) arrays y recs) :
    Shows base p ({ h with arrays := arrays }.setRecords p k y)
      { h.view p with byName := (h.view p).byName.insert k recs } := by
  have hnew : base.arrays.next ≤ y.addr := by
    rcases hy.place with hnew | ⟨x₀, hx₀, haddr⟩
    · exact ho.since.arrays.next_le.trans hnew
    · rw [haddr]
      exact ho.array_new k x₀ hx₀
  have hapart : ∀ k' x', (h.byName p).lookup k' = some x' → k' ≠ k → y.addr ≠ x'.addr := by
    intro k' x' hx' hne haddr
    rcases hy.place with hnew | ⟨x₀, hx₀, hplace⟩
    · exact absurd (ho.valid k' x' hx').addr_lt (Nat.not_lt.mpr (haddr ▸ hnew))
    · exact hne (ho.separate k' k x' x₀ hx' hx₀ (haddr.symm.trans hplace))
  have hshows := ho.of_map (ho.extends_arrays hy.toTouches) (.insert ⟨hy.valid, hnew⟩
    (fun _ _ hx' hne => ho.valid_other hy.toTouches hx' hne) hapart ho.separate)
  rw [Table.mapValues_insert, hy.read_eq, Table.insert_congr (ho.erase_records hy.toTouches)] at hshows
  exact hshows

theorem Owns.deleteRecords (ht : h.arrays.Touches ((h.byName p).lookup k) arrays) :
    Shows base p ({ h with arrays := arrays }.deleteRecords p k)
      { h.view p with byName := (h.view p).byName.erase k } := by
  have hshows := ho.of_map (t := (h.byName p).erase k) (ho.extends_arrays ht) ⟨fun k' x' hx' => ?_, ?_⟩
  · rw [Table.mapValues_erase, ho.erase_records ht] at hshows
    exact hshows
  · rw [Table.lookup_erase_eq] at hx'
    split at hx'
    · cases hx'
    · next hne => exact ho.valid_other ht hx' hne
  · intro k₁ k₂ x₁ x₂ h₁ h₂
    exact ho.separate k₁ k₂ x₁ x₂ (Table.lookup_of_lookup_erase h₁) (Table.lookup_of_lookup_erase h₂)

theorem Owns.sameRecords (hx : (h.byName p).lookup k = some x)
    (hy : h.arrays.Yields (some x) arrays x (h.arrays.read x)) : Shows base p { h with arrays := arrays } (h.view p) := by
  rw [← hx] at hy
  have hshows := ho.of_map (t := h.byName p) (ho.extends_arrays hy.toTouches) ⟨fun k' x' hx' => ?_, ho.separate⟩
  · rw [byName, Store.write_get, Table.mapValues_congr (g := h.arrays.read) fun k' x' hx' => ?_] at hshows
    · exact hshows
    · by_cases hk : k' = k
      · cases hx.symm.trans (hk ▸ hx')
        exact hy.read_eq
      · exact Store.read_congr (ho.get_other hy.toTouches hx' hk)
  · by_cases hk : k' = k
    · cases hx.symm.trans (hk ▸ hx')
      exact ⟨hy.valid, ho.array_new k' x hx'⟩
    · exact ho.valid_other hy.toTouches hx' hk

theorem Owns.of_index {z : Index} {sets : Store (List Bytes)} (hmap : z.byName = (h.indexes.get p).byName)
    (hext : base.sets.Extends sets) (hlt : z.namesExist < sets.next) (hnew : base.sets.next ≤ z.namesExist) :
    Shows base p { h with sets := sets, indexes := h.indexes.write p z }
      ⟨z.origin, z.soaRec, (h.view p).byName, sets.get z.namesExist⟩ := by
  have hindex : (h.indexes.write p z).get p = z := Store.get_write_self ..
  have hby : ({ h with sets := sets, indexes := h.indexes.write p z } : Heap).byName p = h.byName p := by
    rw [byName, hindex, hmap]
    rfl
  refine ⟨⟨⟨ho.index_lt, ?_, ?_, ?_⟩, ⟨ho.since.arrays, ho.since.maps, hext, ho.since.indexes.write ho.index_new z⟩,
    ho.index_new, ?_, ?_, ?_, ?_⟩, ?_⟩
  · rw [hindex, hmap]; exact ho.map_lt
  · rw [hindex]; exact hlt
  · rw [hby]; exact ho.valid
  · rw [hindex, hmap]; exact ho.map_new
  · rw [hindex]; exact hnew
  · rw [hby]; exact ho.array_new
  · rw [hby]; exact ho.separate
  · rw [view, hby, hindex]
    rfl

theorem Owns.setSOA (rec : Record) :
    Shows base p (h.setSOA p rec) { h.view p with soaRec := rec } :=
  ho.of_index rfl ho.since.sets ho.set_lt ho.set_new

theorem Owns.rebuildNamesExist :
    Shows base p (h.rebuildNamesExist p) (h.view p).rebuildNamesExist := by
  have hshows := ho.of_index (z := { h.indexes.get p with namesExist := h.sets.next }) rfl
    (ho.since.sets.alloc (h.view p).rebuildNamesExist.namesExist) (Nat.lt_succ_self _) ho.since.sets.next_le
  rw [Store.get_alloc_next] at hshows
  exact hshows

theorem Owns.markExists (name : Name) :
    Shows base p (h.markExists p name) ((h.view p).markExists name) := by
  refine ⟨{ ho with since := ⟨ho.since.arrays, ho.since.maps, ho.since.sets.write ho.set_new _, ho.since.indexes⟩ }, ?_⟩
  simp only [view, Heap.markExists, byName, Store.get_write_self]
  rfl

end
/-! ### One record of the update section -/

theorem lookup_view (h : Heap) (p : Nat) (k : Bytes) :
    (h.view p).byName.lookup k = ((h.byName p).lookup k).map h.arrays.read :=
  Table.lookup_mapValues

/-- An operation on a zone that may be written to does to the zone that is seen what `z` says. -/
def Does (base : Heap) (p : Nat) (out : Heap × Bool) (z : ZoneIndex × Bool) : Prop := Shows base p out.1 z.1 ∧ out.2 = z.2

section

variable (ho : base.Owns h p)

include ho

theorem Owns.does_nothing : Does base p (h, false) (h.view p, false) := ⟨⟨ho, rfl⟩, rfl⟩

theorem Owns.drop (hx : (h.byName p).lookup (nameKey name) = some x) (m : Record → Bool) :
    Does base p (h.drop slack p name x m) ((h.view p).drop name (h.arrays.read x) m) := by
  have hval := ho.valid _ x hx
  have hy := Store.yields_filterInPlace slack (fun r => !m r) hval
  have hflag := Store.flag_filterInPlace slack (fun r => !m r) hval
  have hsame := Store.filterInPlace_eq_self slack (fun r => !m r) hval
  simp only [Bool.not_not] at hflag
  unfold Heap.drop ZoneIndex.drop
  generalize Store.filterInPlace slack (fun r => !m r) h.arrays x = out at hy hflag hsame ⊢
  obtain ⟨arrays, kept, removed⟩ := out
  rw [← hflag]
  cases removed with
  | false =>
    obtain rfl := hsame rfl
    rw [List.filter_eq_self.mpr (by simpa using List.any_eq_false.mp hflag.symm)] at hy
    exact ⟨ho.sameRecords hx hy, rfl⟩
  | true =>
    have hempty : kept.len = 0 ↔ (h.arrays.read x).filter (fun r => !m r) = [] := by
      rw [← hy.read_eq, ← List.length_eq_zero_iff, hy.valid.length_read]
    rw [← hx] at hy
    simp only [Bool.not_true, Bool.false_eq_true, if_false, ZoneIndex.keep, hempty]
    split
    · exact ⟨ho.deleteRecords hy.toTouches, rfl⟩
    · exact ⟨ho.setRecords hy, rfl⟩

theorem Owns.deleteRRset (name : Name) (t : RRType) :
    Does base p (h.deleteRRset slack p name t) ((h.view p).deleteRRset name t) := by
  unfold Heap.deleteRRset ZoneIndex.deleteRRset
  rw [lookup_view]
  cases hx : (h.byName p).lookup (nameKey name) with
  | none => exact ho.does_nothing
  | some recs =>
    simp only [Option.map_some]
    split
    · split
      · exact ho.drop hx _
      · exact ho.does_nothing
    · split
      · exact ⟨ho.deleteRecords ⟨Nat.le_refl _, fun _ _ _ => rfl⟩, rfl⟩
      · exact ho.drop hx _

theorem Owns.deleteRecord (name : Name) (target : RData) :
    Does base p (h.deleteRecord slack p name target) ((h.view p).deleteRecord name target) := by
  grind [deleteRecord, ZoneIndex.deleteRecord, lookup_view, does_nothing, drop]

theorem Owns.append (rec : Record) : Shows base p (h.append slack p rec) ((h.view p).append rec) := by
  refine ho.setRecords ?_
  rw [ZoneIndex.recordsAt, lookup_view]
  cases hx : (h.byName p).lookup (nameKey rec.name) with
  | none => exact Store.yields_append_none slack h.arrays rec
  | some x => exact Store.yields_append slack (ho.valid _ x hx) rec

theorem Owns.yields_replaceApexSOA (slack : Slack) (name : Name) (stored : Record) :
    h.arrays.Yields ((h.byName p).lookup (nameKey name))
      (replaceApexSOA slack h.arrays stored ((h.byName p).lookup (nameKey name))).1
      (replaceApexSOA slack h.arrays stored ((h.byName p).lookup (nameKey name))).2
      (((h.view p).recordsAt name).filter (fun r => r.type ≠ .soa) ++ [stored]) := by
  rw [ZoneIndex.recordsAt, lookup_view]
  cases hx : (h.byName p).lookup (nameKey name) with
  | none => exact Store.yields_append_none slack h.arrays stored
  | some x =>
    have hkept := Store.yields_filterInPlace slack (fun r => r.type ≠ .soa) (ho.valid _ x hx)
    have hall := hkept.trans (Store.yields_append slack hkept.valid stored)
    rw [hkept.read_eq] at hall
    exact hall

end

theorem Shows.markExists {z : ZoneIndex} (h : Shows base p g z) (name : Name) :
    Shows base p (g.markExists p name) (z.markExists name) :=
  h.view_eq ▸ h.owns.markExists name

theorem Owns.addRecord (ho : base.Owns h p) (u : Record) :
    Does base p (h.addRecord slack p u) ((h.view p).addRecord u) := by
  unfold Heap.addRecord ZoneIndex.addRecord
  simp only
  split
  · exact ho.does_nothing
  · split
    · have hset := ho.setRecords (ho.yields_replaceApexSOA slack u.name (newRecord u.name u.ttl u.rd))
      have hsoa := hset.owns.setSOA (newRecord u.name u.ttl u.rd)
      rw [hset.view_eq] at hsoa
      exact ⟨hsoa.markExists u.name, rfl⟩
    · exact ⟨(ho.append _).markExists u.name, rfl⟩

theorem Owns.applyUpdate (ho : base.Owns h p) (slack : Slack) (u : Record) :
    Does base p (h.applyUpdate slack p u) ((h.view p).applyUpdate u) := by
  grind [applyUpdate, ZoneIndex.applyUpdate, deleteRRset, deleteRecord, addRecord]

theorem Owns.applyUpdates (ho : base.Owns h p) (slack : Slack) (updates : List Record) :
    Does base p (h.applyUpdates slack p updates) ((h.view p).applyUpdates updates) := by
  unfold Heap.applyUpdates ZoneIndex.applyUpdates
  generalize false = changed
  induction updates generalizing h changed with
  | nil => exact ⟨⟨ho, rfl⟩, rfl⟩
  | cons u updates ih =>
    obtain ⟨⟨howns, hview⟩, hflag⟩ := ho.applyUpdate slack u
    rw [List.foldl_cons, List.foldl_cons]
    simp only [← hview, ← hflag]
    exact ih howns _

theorem Owns.bumpSOA (ho : base.Owns h p) (slack : Slack) : Shows base p (h.bumpSOA slack p) (h.view p).bumpSOA := by
  unfold Heap.bumpSOA ZoneIndex.bumpSOA
  simp only
  cases (h.view p).soaRec.asSOA with
  | none => exact ⟨ho, rfl⟩
  | some soa =>
    simp only
    cases ZoneIndex.bumpedSOA soa with
    | error _ => exact ⟨ho, rfl⟩
    | ok bumped =>
      have hsoa := ho.setSOA (newRecord (h.view p).soaRec.name (h.view p).soaRec.ttl (.soa bumped))
      have hset := fun cap recs =>
        hsoa.owns.setRecords (k := nameKey (h.view p).origin) ((Store.yields_fill slack h.arrays cap recs).of_none _)
      rw [hsoa.view_eq] at hset
      exact hset _ _

/-! ### New zones -/

theorem Owns.newIndex {t : Table Bytes Slice} (hext : h.arrays.Extends arrays) (ht : Apart h.arrays arrays t) (origin : Name) (soaRec : Record) (names : List Bytes) :
    Shows h h.indexes.next ({ h with arrays := arrays }.newIndex origin soaRec t names)
      ⟨origin, soaRec, t.mapValues arrays.read, names⟩ := by
  have hindex : (h.indexes.alloc ⟨origin, soaRec, h.maps.next, h.sets.next⟩).get h.indexes.next = _ :=
    Store.get_alloc_next ..
  have hby : ({ h with arrays := arrays }.newIndex origin soaRec t names).byName h.indexes.next = t := by
    rw [byName, Heap.newIndex, hindex]
    exact Store.get_alloc_next ..
  refine ⟨⟨⟨Nat.lt_succ_self _, ?_, ?_, ?_⟩, ⟨hext, .alloc (.refl _) _, .alloc (.refl _) _, .alloc (.refl _) _⟩,
    Nat.le_refl _, ?_, ?_, ?_, ?_⟩, ?_⟩
  · rw [Heap.newIndex, hindex]; exact Nat.lt_succ_self _
  · rw [Heap.newIndex, hindex]; exact Nat.lt_succ_self _
  · rw [hby]; exact fun k x hx => (ht.valid k x hx).1
  · rw [Heap.newIndex, hindex]
  · rw [Heap.newIndex, hindex]
  · rw [hby]; exact fun k x hx => (ht.valid k x hx).2
  · rw [hby]; exact ht.separate
  · rw [view, hby, Heap.newIndex, hindex]
    simp only [Store.get_alloc_next]

/-- The copies of some entries: they show what the entries show, each in a new array of its own. -/
structure Copies (arrays : Store (Backing Record)) (entries : List (Σ _ : Bytes, Slice))
    (out : Store (Backing Record) × Table Bytes Slice) : Prop where
  since : arrays.Extends out.1
  apart : Apart arrays out.1 out.2
  records : (out.2.mapValues out.1.read).entries = entries.map fun e => ⟨e.1, arrays.read e.2⟩

theorem Copies.step {entries : List (Σ _ : Bytes, Slice)} {e : Σ _ : Bytes, Slice}
    {out : Store (Backing Record) × Table Bytes Slice} (h : Copies arrays entries out) (he : arrays.Valid e.2)
    (hnew : e.1 ∉ entries.keys) : Copies arrays (e :: entries) (copyRecords e out) := by
  have hread := h.since.read he
  have hlen := (h.since.valid he).length_read
  have hy := Store.yields_alloc out.1 none hlen.le
  rw [hlen, hread] at hy
  have hext : out.1.Extends (copyRecords e out).1 := .alloc (.refl _) _
  simp only [copyRecords, hread] at hext ⊢
  refine ⟨h.since.trans hext, .insert ⟨hy.valid, h.since.next_le⟩ (fun k x hx _ => ?_) (fun k x hx _ => ?_)
    h.apart.separate, ?_⟩
  · exact ⟨hext.valid (h.apart.valid k x hx).1, (h.apart.valid k x hx).2⟩
  · exact (h.apart.valid k x hx).1.addr_lt.ne'
  · have hold := Table.mapValues_congr fun k x hx => hext.read (h.apart.valid k x hx).1
    have hfresh : e.1 ∉ out.2.mapValues out.1.read := by
      rw [AList.mem_keys, AList.keys, h.records, List.keys, List.map_map]
      exact hnew
    rw [Table.mapValues_insert, hy.read_eq, hold, AList.entries_insert_of_notMem hfresh, h.records]
    rfl

theorem Sound.clone (hp : h.Sound p) : Shows h h.indexes.next (h.clone p) (h.view p) := by
  have hcopies : ∀ entries : List (Σ _ : Bytes, Slice), (∀ e ∈ entries, h.arrays.Valid e.2) → entries.NodupKeys →
      Copies h.arrays entries (entries.foldr copyRecords (h.arrays, ∅)) := by
    intro entries hvalid hnodup
    induction entries with
    | nil => exact ⟨.refl _, .empty, rfl⟩
    | cons e entries ih =>
      obtain ⟨hnew, hnodup⟩ := List.nodupKeys_cons.mp hnodup
      exact (ih (fun e' he' => hvalid e' (.tail _ he')) hnodup).step (hvalid e (.head _)) hnew
  have h' := hcopies (h.byName p).entries (fun e he => hp.valid e.1 e.2 (AList.mem_lookup_iff.mpr he)) (h.byName p).nodupKeys
  have hshows := Owns.newIndex h'.since h'.apart (h.indexes.get p).origin (h.indexes.get p).soaRec
    (h.sets.get (h.indexes.get p).namesExist)
  rw [show Table.mapValues _ _ = (h.view p).byName from AList.ext h'.records] at hshows
  exact hshows

theorem indexZone_cases (slack : Slack) (h : Heap) (z : Zone) :
    (∃ err, h.indexZone slack z = .error err ∧ Authoritative.indexZone z = .error err) ∨
      ∃ g idx, h.indexZone slack z = .ok g ∧ Authoritative.indexZone z = .ok idx ∧ Shows h h.indexes.next g idx := by
  unfold indexZone Authoritative.indexZone
  cases z.soa with
  | none => exact .inl ⟨_, rfl, rfl⟩
  | some soaRec =>
    simp only
    split
    · exact .inl ⟨_, rfl, rfl⟩
    · have hloop : ∀ (records : List Record) (g : Heap) (idx : ZoneIndex), Shows h h.indexes.next g idx →
          Shows h h.indexes.next
            (records.foldl (fun g rec => (g.append slack h.indexes.next rec).markExists h.indexes.next rec.name) g)
            (records.foldl (fun idx rec => (idx.append rec).markExists rec.name) idx) := by
        intro records
        induction records with
        | nil => exact fun g idx hg => hg
        | cons rec records ih =>
          rintro g _ ⟨howns, rfl⟩
          exact ih _ _ ((howns.append rec).markExists rec.name)
      refine .inr ⟨_, _, rfl, rfl, hloop z.records _ _ ?_⟩
      exact Owns.newIndex (.refl _) .empty _ _ _

end

end Heap

/-! ### Every run -/

namespace Shared

section

variable {slack : Slack} {cfg : Config} {s s' : Shared} {a : Action} {g : Heap}

def Sound (s : Shared) : Prop := ∀ k p, s.zones.lookup k = some p → s.heap.Sound p

theorem Sound.published_eq (hs : s.Sound) (hg : s.heap.Extends g) : s.zones.mapValues g.view = s.published :=
  Table.mapValues_congr fun k p hp => hg.view_eq (hs k p hp)

theorem Sound.publish (hs : s.Sound) {z : ZoneIndex} (hg : Heap.Shows s.heap s.heap.indexes.next g z) (k : Bytes)
    (waiting : List (Name × Message)) (served : List Served) :
    let s' : Shared := ⟨g, s.zones.insert k s.heap.indexes.next, waiting, served⟩
    s.heap.Extends s'.heap ∧ s'.Sound ∧ s'.view = ⟨s.published.insert k z, waiting, served⟩ := by
  obtain ⟨howns, rfl⟩ := hg
  refine ⟨howns.since, fun k' p hp => ?_, ?_⟩
  · rw [Table.lookup_insert_eq] at hp
    split at hp
    · cases hp
      exact howns.toSound
    · exact howns.since.sound (hs k' p hp)
  · rw [view, published, Table.mapValues_insert, hs.published_eq howns.since]

/-- On the heap a commit does what it does to values. -/
theorem Sound.commitUpdate (hs : s.Sound) (slack : Slack) (cfg : Config) (zoneName : Name) (q : Message) :
    (∃ rcode, s.commitUpdate slack cfg zoneName q = (s.heap, s.zones, .refused q rcode) ∧
      Authoritative.commitUpdate cfg s.published zoneName q = (s.published, .refused q rcode)) ∨
    ∃ g z served, s.commitUpdate slack cfg zoneName q = (g, s.zones.insert (nameKey zoneName) s.heap.indexes.next, served) ∧
      Authoritative.commitUpdate cfg s.published zoneName q = (s.published.insert (nameKey zoneName) z, served) ∧
      Heap.Shows s.heap s.heap.indexes.next g z ∧ served.rcode = .noError := by
  have hlookup : s.published.lookup (nameKey zoneName) = (s.zones.lookup (nameKey zoneName)).map s.heap.view :=
    Table.lookup_mapValues
  cases hp : s.zones.lookup (nameKey zoneName) with
  | none => simp [Shared.commitUpdate, Authoritative.commitUpdate, checkUpdate, *]
  | some p =>
    cases hcheck : checkUpdate s.published zoneName q with
    | error rcode =>
      refine .inl ⟨rcode, by rw [Shared.commitUpdate, hp, hcheck], ?_⟩
      rw [Authoritative.commitUpdate, hcheck]
    | ok zone =>
      obtain rfl : s.heap.view p = zone := by
        rw [hp] at hlookup
        exact Option.some.inj (hlookup.symm.trans (checkUpdate_eq_ok.mp hcheck).1)
      obtain ⟨hclone, hview⟩ := (hs _ p hp).clone
      obtain ⟨⟨howns, happlied⟩, hflag⟩ := hclone.applyUpdates slack q.authorities
      rw [hview] at happlied hflag
      obtain ⟨hbump, hbumped⟩ := howns.bumpSOA slack
      obtain ⟨hrebuild, hrebuilt⟩ := hbump.rebuildNamesExist
      right
      rw [Shared.commitUpdate, hp, hcheck, Authoritative.commitUpdate, hcheck]
      simp only [ZoneIndex.update, ← happlied, ← hflag, ← hbumped, ← hrebuilt]
      cases ((s.heap.clone p).applyUpdates slack s.heap.indexes.next q.authorities).2 with
      | false => exact ⟨_, _, _, rfl, rfl, ⟨howns, rfl⟩, rfl⟩
      | true => exact ⟨_, _, _, rfl, rfl, ⟨hrebuild, rfl⟩, rfl⟩

/-- The heap refines the values, step by step. -/
theorem Sound.step (hs : s.Sound) (h : s.step slack cfg a = some s') :
    s.heap.Extends s'.heap ∧ s'.Sound ∧ s.view.step cfg a = some s'.view := by
  cases a with
  | load z =>
    rw [Shared.step] at h
    rw [State.step]
    rcases s.heap.indexZone_cases slack z with ⟨err, hheap, hvalue⟩ | ⟨g, idx, hheap, hvalue, hshows⟩
    · rw [hheap] at h
      cases h
      exact ⟨.refl _, hs, by rw [hvalue]⟩
    · rw [hheap] at h
      cases h
      obtain ⟨hext, hsound, hview⟩ := hs.publish hshows (nameKey z.origin) s.waiting s.served
      exact ⟨hext, hsound, by rw [hvalue, hview]; rfl⟩
  | receive policy q =>
    rw [Shared.step] at h
    rw [State.step, show s.view.zones = s.published from rfl]
    cases ha : admitUpdate cfg policy s.published q <;> rw [ha] at h <;> obtain rfl := Option.some.inj h <;>
      exact ⟨.refl _, hs, rfl⟩
  | commit i =>
    obtain ⟨⟨zoneName, q⟩, hwaiting, h⟩ := Option.bind_eq_some_iff.mp h
    rw [State.step, show s.view.waiting[i]? = some (zoneName, q) from hwaiting, show s.view.zones = s.published from rfl]
    rcases hs.commitUpdate slack cfg zoneName q with
      ⟨rcode, hheap, hvalue⟩ | ⟨g, z, served, hheap, hvalue, hshows, -⟩
    · simp only [hheap] at h
      cases h
      exact ⟨.refl _, hs, by simp only [Option.bind_eq_bind, Option.bind_some, hvalue]; rfl⟩
    · simp only [hheap] at h
      cases h
      obtain ⟨hext, hsound, hview⟩ := hs.publish hshows (nameKey zoneName) (s.waiting.eraseIdx i) (served :: s.served)
      exact ⟨hext, hsound, by simp only [Option.bind_eq_bind, Option.bind_some, hvalue, hview]; rfl⟩

theorem Sound.run (hs : s.Sound) {actions : List Action} (h : s.run slack cfg actions = some s') :
    s.heap.Extends s'.heap ∧ s'.Sound ∧ s.view.run cfg actions = some s'.view := by
  induction actions generalizing s with
  | nil =>
    cases h
    exact ⟨.refl _, hs, rfl⟩
  | cons a actions ih =>
    obtain ⟨s'', hstep, hrun⟩ := Option.bind_eq_some_iff.mp h
    obtain ⟨hext, hsound, hvalue⟩ := hs.step hstep
    obtain ⟨hext', hsound', hvalue'⟩ := ih hsound hrun
    exact ⟨hext.trans hext', hsound', Option.bind_eq_some_iff.mpr ⟨_, hvalue, hvalue'⟩⟩

theorem sound_initial (blank : Index) : (initial blank).Sound := by
  intro k p hp
  cases hp

theorem Sound.step_refused (hs : s.Sound) (h : s.step slack cfg a = some s') (hload : ∀ z, a ≠ .load z)
    (hrefused : ∀ o, s'.served = o :: s.served → o.rcode ≠ .noError) : s'.zones = s.zones ∧ s'.heap = s.heap := by
  cases a with
  | load z => exact absurd rfl (hload z)
  | receive policy q =>
    rw [Shared.step] at h
    split at h <;> obtain rfl := Option.some.inj h <;> exact ⟨rfl, rfl⟩
  | commit i =>
    obtain ⟨⟨zoneName, q⟩, -, h⟩ := Option.bind_eq_some_iff.mp h
    rcases hs.commitUpdate slack cfg zoneName q with ⟨rcode, hheap, -⟩ | ⟨g, z, served, hheap, -, -, hok⟩
    · simp only [hheap] at h
      cases h
      exact ⟨rfl, rfl⟩
    · simp only [hheap] at h
      cases h
      exact absurd hok (hrefused served rfl)

/-- A pointer that was published shows the zone it showed, whatever runs later; an update that is not answered NOERROR
changes neither the pointers nor what they show. -/
theorem run_keeps_snapshots {blank : Index} {earlier later : List Action} (hs : (initial blank).run slack cfg earlier = some s)
    (hrun : s.run slack cfg later = some s') :
    (∀ k p, s.zones.lookup k = some p → s'.heap.view p = s.heap.view p) ∧
      ∀ a t, s.step slack cfg a = some t → (∀ z, a ≠ .load z) →
        (∀ o, t.served = o :: s.served → o.rcode ≠ .noError) → t.zones = s.zones ∧ t.heap = s.heap := by
  obtain ⟨-, hsound, -⟩ := (sound_initial blank).run hs
  refine ⟨fun k p hp => ?_, fun a t => hsound.step_refused⟩
  exact (hsound.run hrun).1.view_eq (hsound k p hp)

end

theorem run_keeps_snapshots_sample : ∃ s s', (initial ⟨sampleOrigin, sampleSOA sampleOrigin 0, 0, 0⟩).run (fun _ _ => 0) defaultConfig
      [.load sampleZone] = some s ∧
    s.run (fun _ _ => 0) defaultConfig [.receive (some fun _ => true) (sampleUpdate [sampleSOA sampleOrigin 5]), .commit 0] = some s' ∧
    s'.zones.lookup (nameKey sampleOrigin) = some 1 ∧ (s'.heap.view 1).serial = some 6 ∧ s'.heap.view 0 = s.heap.view 0 := by
  have hruns : ((initial ⟨sampleOrigin, sampleSOA sampleOrigin 0, 0, 0⟩).run (fun _ _ => 0) defaultConfig [.load sampleZone]).bind
      (fun s => (s.run (fun _ _ => 0) defaultConfig
        [.receive (some fun _ => true) (sampleUpdate [sampleSOA sampleOrigin 5]), .commit 0]).map fun s' =>
          (s.zones.lookup (nameKey sampleOrigin), s'.zones.lookup (nameKey sampleOrigin), (s'.heap.view 1).serial)) =
      some (some 0, some 1, some 6) := by decide +kernel
  obtain ⟨s, hs, hrest⟩ := Option.bind_eq_some_iff.mp hruns
  obtain ⟨s', hrun, hseen⟩ := Option.map_eq_some_iff.mp hrest
  obtain ⟨hbefore, hafter, hserial⟩ : s.zones.lookup (nameKey sampleOrigin) = some 0 ∧
      s'.zones.lookup (nameKey sampleOrigin) = some 1 ∧ (s'.heap.view 1).serial = some 6 := by
    simpa only [Prod.mk.injEq] using hseen
  exact ⟨s, s', hs, hrun, hafter, hserial, (run_keeps_snapshots hs hrun).1 _ 0 hbefore⟩

end Shared

end Acidns.Authoritative
