import Acidns.Authoritative.Invariant
import Acidns.Authoritative.Lookup
import Acidns.Zonefile.Directives

/-!
# The origin of a parsed zone

`Parse` of `zonefile/zonefile.go` returns the origin that is in force at the end of the file, and `AddZone` of
`authoritative/authoritative.go` registers the zone under it. It is the apex of the zone only if the last `$ORIGIN`
of the file names the owner of the SOA.
-/

namespace Acidns

open Numeral

namespace Zonefile

variable {texts : Texts} {dirs : Directives} {p q : Parser}

def originAfter (origin : Name) : List FieldTok → Name
  | [first, f] =>
    if first.text.head? = some 0x24 ∧ first.text.map upperByte = ascii "$ORIGIN" then
      (parseName f.text).toOption.getD origin
    else origin
  | _ => origin

/-- The name of the last `$ORIGIN` of a file, which starts with `origin`. Files that it includes have no part in it. -/
def lastOrigin : (fuel : Nat) → (origin : Name) → Lexer → Bytes → Name
  | 0, origin, _, _ => origin
  | fuel + 1, origin, l, s =>
    match readLine l s with
    | .error _ => origin
    | .ok t =>
      if t.fields = [] ∧ t.eof then origin else lastOrigin fuel (originAfter origin t.fields) t.lexer t.rest

variable {first : FieldTok} {fields : List FieldTok} {fuel : Nat} {s : Bytes}

theorem originAfter_of_not {origin : Name} (fields : List FieldTok)
    (h : ¬(first.text.head? = some 0x24 ∧ first.text.map upperByte = ascii "$ORIGIN")) :
    originAfter origin (first :: fields) = origin := by
  unfold originAfter
  split
  · next heq =>
    cases heq
    exact if_neg h
  · rfl

def KeepsOrigin (f : Parser → List FieldTok → Except ParseError Parser) : Prop :=
  ∀ p fields q, f p fields = .ok q → q.origin = p.origin

theorem origin_handleRecord {line : Nat} {owner : Name}
    (h : handleRecord texts p line owner fields = .ok q) : q.origin = p.origin := by
  obtain ⟨⟨fields, ttl, class_⟩, -, h⟩ := bind_ok h
  cases fields with
  | nil => cases h
  | cons f rest =>
    simp only at h
    split at h
    · cases h
    · split at h
      · cases h
      · obtain ⟨rd, -, h⟩ := bind_ok h
        cases h
        rfl

theorem origin_generateLoop {g : GenerateLine} {v : Int} (h : generateLoop texts g fuel v p = .ok q) :
    q.origin = p.origin := by
  induction fuel generalizing v p with
  | zero => cases h
  | succ fuel ih =>
    obtain ⟨p', hrecord, h⟩ := bind_ok h
    have hp' : p'.origin = p.origin := by
      obtain ⟨ownerStr, -, hrecord⟩ := bind_ok hrecord
      obtain ⟨owner, -, hrecord⟩ := bind_ok hrecord
      obtain ⟨sub, -, hrecord⟩ := bind_ok hrecord
      obtain ⟨rd, -, hrecord⟩ := bind_ok hrecord
      cases hrecord
      rfl
    split at h
    · cases h; exact hp'
    split at h
    · cases h; exact hp'
    · exact (ih h).trans hp'

theorem keepsOrigin_handleGenerate {cap : Int} : KeepsOrigin (handleGenerate texts cap) := by
  intro p fields q h
  unfold handleGenerate at h
  split at h
  · obtain ⟨range, -, h⟩ := bind_ok h
    split at h
    · cases h
    obtain ⟨⟨rest, ttl, class_⟩, -, h⟩ := bind_ok h
    cases rest with
    | nil => cases h
    | cons f rhs => grind [origin_generateLoop]
  all_goals cases h

theorem keepsOrigin_handleInclude {resolver : Option IncludeResolver} {source : Bytes} {allowed : Bool} {depth : Nat}
    {nested : Bytes → Parser → Bytes → Except ParseError Parser} :
    KeepsOrigin (handleInclude resolver source allowed depth nested) := by
  intro p fields q h
  unfold handleInclude at h
  split at h
  · cases h
  · split at h
    · cases h
    split at h
    · cases h
    obtain ⟨origin, -, h⟩ := bind_ok h
    split at h
    · cases h
    · obtain ⟨included, -, h⟩ := bind_ok h
      cases h
      rfl
  · cases h

section

variable (hgenerate : KeepsOrigin dirs.handleGenerate) (hinclude : KeepsOrigin dirs.handleInclude)

include hgenerate hinclude

theorem origin_handleLine {leadingWS : Bool}
    (h : handleLine texts dirs p first fields leadingWS = .ok q) : q.origin = originAfter p.origin (first :: fields) := by
  unfold handleLine at h
  split at h
  · next hdollar =>
    unfold handleDirective at h
    simp only at h
    split at h
    · next hword =>
      unfold handleOrigin at h
      split at h
      · next f =>
        obtain ⟨n, hn, h⟩ := bind_ok h
        cases h
        have hn : parseName f.text = .ok n := mapError_eq_ok.mp (mapError_eq_ok.mp hn)
        rw [originAfter, if_pos ⟨hdollar, hword⟩, hn]
        rfl
      · cases h
    · next hword =>
      rw [originAfter_of_not fields fun h => hword h.2]
      split at h
      · unfold handleTTL at h
        split at h
        · obtain ⟨v, -, h⟩ := bind_ok h
          split at h
          · cases h
          · cases h
            rfl
        · cases h
      split at h
      · exact hgenerate _ _ _ h
      split at h
      · exact hinclude _ _ _ h
      · cases h
  · next hdollar =>
    rw [originAfter_of_not fields fun h => hdollar h.1]
    split at h
    · split at h
      · cases h
      · exact origin_handleRecord h
    · obtain ⟨owner, -, h⟩ := bind_ok h
      exact origin_handleRecord h

theorem origin_run {l : Lexer} (h : run texts dirs fuel p l s = .ok q) : q.origin = lastOrigin fuel p.origin l s := by
  induction fuel generalizing p l s with
  | zero => cases h
  | succ fuel ih =>
    obtain ⟨t, ht, h⟩ := bind_ok h
    rw [lastOrigin, mapError_eq_ok.mp ht]
    simp only
    cases hfields : t.fields with
    | nil =>
      rw [hfields] at h
      simp only at h
      split at h
      · next heof =>
        cases h
        rw [if_pos ⟨rfl, heof⟩]
      · next heof =>
        rw [if_neg fun h => heof h.2]
        exact ih h
    | cons first fields =>
      rw [hfields] at h
      obtain ⟨p', hline, h⟩ := bind_ok h
      rw [if_neg fun h => List.cons_ne_nil _ _ h.1, ← origin_handleLine hgenerate hinclude hline]
      exact ih h

end

/-- The name of the last `$ORIGIN` of a file, or the configured origin. -/
def ParseConfig.lastOrigin (c : ParseConfig) (s : Bytes) : Name := Zonefile.lastOrigin (s.length + 2) c.origin newLexer s

theorem ParseConfig.origin_parse {c : ParseConfig} {z : Zone} (h : c.parse texts s = .ok z) :
    z.origin = c.lastOrigin s := by
  obtain ⟨p, hrun, h⟩ := bind_ok h
  cases h
  refine origin_run ?_ ?_ hrun <;> cases c.includeCap <;> rw [directives] <;> dsimp only
  · exact keepsOrigin_handleGenerate
  · exact keepsOrigin_handleGenerate
  · exact keepsOrigin_handleInclude
  · exact keepsOrigin_handleInclude

end Zonefile

namespace Authoritative

variable {zones : Zones} {idx : ZoneIndex} {origin name : Name}

/-- The deepest zone that holds the name. -/
def findZone (zones : Zones) (name : Name) : Option ZoneIndex := name.climb fun cur => zones.lookup (nameKey cur)

theorem findZone_insert (h : origin.Encloses name)
    (hfree : ∀ m, origin.Encloses m → m ≠ origin → zones.lookup (nameKey m) = none) :
    findZone (zones.insert (nameKey origin) idx) name = some idx := by
  grind [Name.climb_eq_some_iff, Table.lookup_insert_eq, nameKey_injective, Name.Encloses, findZone]

/-- The origin is the owner of the SOA exactly if the last `$ORIGIN` names it; `AddZone` then registers the zone under its
apex, and it is found for each record at or below it, if no other zone is registered below the apex. -/
theorem parse_apex_iff {texts : Texts} {c : Zonefile.ParseConfig} {s : Bytes} {z : Zone} {soaRec : Record}
    (hparse : c.parse texts s = .ok z) (hsoa : z.records.filter (fun r => r.type = .soa) = [soaRec]) :
    (z.origin = soaRec.name ↔ c.lastOrigin s = soaRec.name) ∧
    (c.lastOrigin s = soaRec.name → ∀ idx, indexZone z = .ok idx → idx.origin = soaRec.name ∧ idx.soaRec = soaRec ∧
      ∀ zones : Zones, (∀ m, soaRec.name.Encloses m → m ≠ soaRec.name → zones.lookup (nameKey m) = none) →
        ∀ r ∈ z.records, soaRec.name.Encloses r.name →
          findZone (zones.insert (nameKey z.origin) idx) r.name = some idx) := by
  have horigin := Zonefile.ParseConfig.origin_parse hparse
  refine ⟨by rw [horigin], fun hlast idx hindex => ?_⟩
  have hapex := horigin.trans hlast
  refine ⟨(origin_indexZone hindex).trans hapex, (soaRec_indexZone hindex hsoa).1, fun zones hfree r _ hr => ?_⟩
  rw [hapex]
  exact findZone_insert hr hfree

namespace OriginSample

def text (last : String) : Bytes :=
  ascii "$ORIGIN a.\n$TTL 1\n@ SOA a. a. 1 1 1 1 1\n$ORIGIN b.a.\nc NS a.\n" ++ ascii last

def load (last : String) : Option (Zone × ZoneIndex) := do
  let z ← (Zonefile.defaultParseConfig.parse ⟨some, some⟩ (text last)).toOption
  let idx ← (indexZone z).toOption
  return (z, idx)

theorem load_eq_some {last : String} {z : Zone} {idx : ZoneIndex} (h : load last = some (z, idx)) :
    Zonefile.defaultParseConfig.parse ⟨some, some⟩ (text last) = .ok z ∧ indexZone z = .ok idx := by
  grind [load, Option.bind_eq_some_iff, toOption_eq_some]

def serves (last : String) (name : Name) : Option Bool :=
  (load last).map fun p => (findZone ((∅ : Zones).insert (nameKey p.1.origin) p.2) name).isSome

end OriginSample

open OriginSample Name.Short in
theorem parse_apex_sample : ∃ z idx, load "$ORIGIN a.\n" = some (z, idx) ∧
    findZone ((∅ : Zones).insert (nameKey z.origin) idx) cba = some idx := by
  have hzone : (load "$ORIGIN a.\n").map (fun p => (p.1.records.filter (fun r => r.type = .soa),
      decide (newRecord cba second (.ns a) ∈ p.1.records))) =
        some ([newRecord a second (.soa ⟨a, a, 1, second, second, second, second⟩)], true) := by
    decide +kernel
  obtain ⟨⟨z, idx⟩, hload, hzone⟩ := Option.map_eq_some_iff.mp hzone
  obtain ⟨hsoa, hmem⟩ := Prod.ext_iff.mp hzone
  obtain ⟨hparse, hindex⟩ := load_eq_some hload
  have hlast : Zonefile.defaultParseConfig.lastOrigin (text "$ORIGIN a.\n") = a := by decide +kernel
  obtain ⟨-, -, hfound⟩ := (parse_apex_iff hparse hsoa).2 hlast idx hindex
  have hbelow : a.Encloses cba := Recursive.inBailiwick_iff.mp (by decide)
  exact ⟨z, idx, hload, hfound ∅ (fun m _ _ => AList.lookup_empty _) _ (of_decide_eq_true hmem) hbelow⟩

open OriginSample Name.Short in
/-- A last `$ORIGIN` below the apex: the zone is registered there, and the SOA is not found. -/
theorem parse_not_apex : (load "").map (fun p => (p.1.origin, p.1.records.map fun r => (r.name, r.type))) =
    some (ba, [(a, .soa), (cba, .ns)]) ∧ serves "" a = some false := by
  decide +kernel

end Authoritative

end Acidns
