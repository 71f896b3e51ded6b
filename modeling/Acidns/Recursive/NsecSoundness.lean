import Acidns.Recursive.AggressiveNsec

/-!
# When a synthesised denial is right

The zones of a tree are honest, and every record inserted is one of theirs. The index then holds nothing
else, whatever was swept and evicted on the way, and a denial that is synthesised from it is right if the
record behind it is none of the exceptions that the index does not look at.
-/

namespace Acidns.Recursive

open SignedZone (Denies IsWildcard)

/-! ### Runs of the index -/

/-- A call on the index. -/
inductive NsecAction where
  | insert (e : NsecEntry) (now : Int)
  | sweep (now : Int)

namespace NsecIndex

def step (i : NsecIndex) : NsecAction → Option NsecIndex
  | .insert e now => i.insert e now
  | .sweep now => some (i.sweepExpired now)

def run (i : NsecIndex) (actions : List NsecAction) : Option NsecIndex := actions.foldlM step i

variable {i i' : NsecIndex} {e : NsecEntry} {q : Name} {t : RRType} {now : Int} {P : NsecEntry → Prop}

theorem mem_sweepExpired (h : e ∈ (i.sweepExpired now).entries) : e ∈ i.entries := (List.mem_filter.mp h).1

theorem mem_of_insert {x : NsecEntry} (h : i.insert e now = some i') (hx : x ∈ i'.entries) : x = e ∨ x ∈ i.entries := by
  grind [insert, mem_sweepExpired, Slice.mem_of_mem_evictEarliest, Slice.insertAt]

theorem step_keeps {action : NsecAction} (hi : ∀ e ∈ i.entries, P e) (haction : ∀ e now, action = .insert e now → P e)
    (h : i.step action = some i') : ∀ e ∈ i'.entries, P e := by
  intro x hx
  cases action with
  | insert e now =>
    rcases mem_of_insert h hx with rfl | hx
    · exact haction x now rfl
    · exact hi x hx
  | sweep now =>
    cases h
    exact hi x (mem_sweepExpired hx)

theorem run_keeps {actions : List NsecAction} (hi : ∀ e ∈ i.entries, P e)
    (hactions : ∀ e now, .insert e now ∈ actions → P e) (h : i.run actions = some i') : ∀ e ∈ i'.entries, P e := by
  induction actions generalizing i with
  | nil =>
    cases h
    exact hi
  | cons action actions ih =>
    obtain ⟨i₁, hstep, hrest⟩ := Option.bind_eq_some_iff.mp h
    refine ih ?_ (fun e now hmem => hactions e now (.tail _ hmem)) hrest
    exact step_keeps hi (fun e now heq => hactions e now (heq ▸ (.head _))) hstep

/-! ### What a lookup finds -/

theorem mem_of_candidate (h : i.candidate q = some e) : e ∈ i.entries := by
  grind [candidate]

theorem lookup_spec {kind : LookupKind} (h : i.lookup q t now = some (e, kind)) :
    e ∈ i.entries ∧ e.issuingZone.Encloses q ∧ (kind = .noData → e.owner = q ∧ .cname ∉ e.types ∧ t ∉ e.types) := by
  unfold lookup at h
  split at h; · cases h
  next cand hcand =>
  split at h; · cases h
  split at h; · cases h
  next hzone =>
  rw [Bool.not_eq_true', Bool.not_eq_false] at hzone
  have henclosed : cand.issuingZone.Encloses q := inBailiwick_iff.mp hzone
  split at h
  · next hequal =>
    split at h; · cases h
    next hcname =>
    split at h; · cases h
    next htype =>
    cases h
    refine ⟨mem_of_candidate hcand, henclosed, fun _ => ⟨Name.equal_iff.mp hequal, ?_, ?_⟩⟩
    · exact fun hmem => hcname (decide_eq_true hmem)
    · exact fun hmem => htype (decide_eq_true hmem)
  · split at h; · cases h
    cases h
    exact ⟨mem_of_candidate hcand, henclosed, nofun⟩

theorem synthesise_spec {later : Int} {entry : Entry} (h : i.synthesise q t now later = some entry) :
    ∃ e kind, i.lookup q t now = some (e, kind) ∧
      (entry.rcode = .nxDomain ∧ kind = .nxdomain ∨ entry.rcode = .noError ∧ kind = .noData) := by
  grind [synthesise]

end NsecIndex

/-! ### Honest zones -/

/-- The entry is an NSEC record of a zone of the tree, under the zone's name. -/
def NsecEntry.Genuine (tree : ZoneTree) (e : NsecEntry) : Prop :=
  ∃ z ∈ tree.zones, e.issuingZone = z.apex ∧ z.IsNSEC e.owner ⟨e.next, e.types⟩

/-- The entry covers the name and speaks for its zone. -/
def NsecEntry.Denies (e : NsecEntry) (q : Name) : Prop :=
  nameCoveredBy q e.owner e.next ∧ SignedZone.Denies e.owner ⟨e.next, e.types⟩ q

/-- What the index does not look at: that the entry found denies the name, and one the wildcard below the closest
encloser; or, if it is at `q`, that it is not the parent's at a delegation. -/
def NsecIndex.Reliable (i : NsecIndex) (q : Name) (t : RRType) (now : Int) : Prop :=
  ∀ e kind, i.lookup q t now = some (e, kind) →
    match kind with
    | .nxdomain => e.Denies q ∧ ∀ w, IsWildcard (deeperAncestor q e.owner e.next) w →
        ∃ e', i.lookup w .any now = some (e', .nxdomain) ∧ e'.Denies w
    | .noData => ¬(.ns ∈ e.types ∧ .soa ∉ e.types)

/-- The denial is true of the zone that has authority for the name. -/
def Warranted (tree : ZoneTree) (q : Name) (t : RRType) (entry : Entry) : Prop :=
  ∃ z, tree.Authority z q ∧
    (entry.rcode = .nxDomain ∧ z.NameError q ∨
      entry.rcode = .noError ∧ q ∈ z.owners ∧ t ∉ z.types q ∧ .cname ∉ z.types q)

section Sound

variable {tree : ZoneTree} {z z' : SignedZone} {e : NsecEntry} {q w : Name} {t : RRType}

theorem NsecEntry.Denies.absent (h : e.Denies q) (hz : z.IsNSEC e.owner ⟨e.next, e.types⟩) (hq : q.isValid) :
    z.Absent q := (hz.denies_iff h.1 hq).mp h.2

theorem eq_of_absent_wildcard {c : Name} (hz : tree.Authority z q) (hclosest : z.ClosestEncloser c q)
    (hocc : ∀ d, z.Occludes d → ¬d.Encloses q) (hwild : IsWildcard c w) (hz' : z' ∈ tree.zones)
    (hzone' : z'.apex.Encloses w) (habsent : z'.Absent w) : z' = z := by
  have hapex : z.apex.Encloses c := hclosest.2.2 z.apex hz.2.1 ⟨z.apex, z.apex_mem, .refl hz.2.1.1⟩
  have hzone : z.apex.Encloses w := hapex.trans (hwild.encloses_self hclosest.1.1)
  by_contra hne
  rcases hzone.total hzone' with hdown | hup
  · -- below a delegation of the zone there would be the name as well, unless the wildcard is the cut
    obtain ⟨d, hd, hdz'⟩ := tree.cut z hz.1 z' hz' (Ne.symm hne) hdown
    have hdw := hdz'.trans hzone'
    by_cases heq : d = w
    · subst heq
      exact habsent.1 ⟨z'.apex, z'.apex_mem, hdz'⟩
    · exact hocc d hd.occludes ((hwild.encloses hclosest.1.1 hdw heq).trans hclosest.1)
  · obtain ⟨d, hd, hdz⟩ := tree.cut z' hz' z hz.1 hne hup
    exact habsent.2 d hd.occludes (hdz.trans hzone)

end Sound

/-! ### A zone and its child -/

namespace NsecSample

def nameA : Name := Name.Short.a
def nameBA : Name := Name.Short.ba
def nameCA : Name := Name.Short.ca
def starA : Name := Name.Short.starA

def parentTypes (n : Name) : List RRType := if n = nameA then [.ns, .soa] else [.ns]

def parent : SignedZone where
  apex := nameA
  owners := {nameA, nameBA}
  types n := (parentTypes n).toFinset
  apex_mem := by decide
  below := by decide
  soa := by decide

def child : SignedZone where
  apex := nameBA
  owners := {nameBA}
  types _ := {.a, .ns, .soa}
  apex_mem := by decide
  below := by decide
  soa := by decide

theorem authoritative {n : Name} (hn : n ∈ parent.owners) : parent.Authoritative n := by
  refine ⟨hn, fun d hd hdn => ?_⟩
  have hall : ∀ d ∈ parent.owners, parent.types d = {.ns} → ∀ n ∈ parent.owners, d.Encloses n → d = n := by decide
  have hdelegated : ∀ d ∈ parent.owners, (d ≠ parent.apex ∧ .ns ∈ parent.types d) ∨ .dname ∈ parent.types d →
      parent.types d = {.ns} := by
    decide
  exact hall d hd.1 (hdelegated d hd.1 hd.2) n hn hdn

theorem delegation_nameBA : parent.Delegation nameBA := ⟨authoritative (by decide), by decide, by decide⟩

def tree : ZoneTree where
  zones := {parent, child}
  cut := by
    rintro z (rfl | rfl) c (rfl | rfl) hne henc
    · exact absurd rfl hne
    · exact ⟨nameBA, delegation_nameBA, by decide⟩
    · exact absurd henc (by decide)
    · exact absurd rfl hne

def entryA : NsecEntry := ⟨nameA, nameBA, [.ns, .soa], nameA, 100⟩
def entryBA : NsecEntry := ⟨nameBA, nameA, [.ns], nameA, 100⟩

def index : NsecIndex := ⟨[entryA, entryBA], defaultAggressiveNSECCap⟩

def actions : List NsecAction := [.insert entryA 0, .insert entryBA 0]

theorem run_actions : newNSECIndex.run actions = some index := by decide +kernel

theorem genuine : ∀ e now, .insert e now ∈ actions → e.Genuine tree := by
  have hlink : ∀ owner next, owner ∈ parent.owners → next ∈ parent.owners →
      (∀ n ∈ parent.owners, nameCoveredBy n owner next = false) → parent.IsNSEC owner ⟨next, parentTypes owner⟩ :=
    fun owner next howner hnext hgap =>
      SignedZone.isNSEC_of_gap (authoritative howner) (authoritative hnext) hgap fun t => List.mem_toFinset.symm
  intro e now hmem
  rcases List.mem_cons.mp hmem with heq | hmem
  · obtain ⟨rfl, -⟩ := NsecAction.insert.inj heq
    exact ⟨parent, .inl rfl, rfl, hlink nameA nameBA (by decide) (by decide) (by decide)⟩
  · obtain ⟨rfl, -⟩ := NsecAction.insert.inj (List.mem_singleton.mp hmem)
    exact ⟨parent, .inl rfl, rfl, hlink nameBA nameA (by decide) (by decide) (by decide)⟩

theorem reliable : index.Reliable nameCA .a 0 := by
  have hlookup : index.lookup nameCA .a 0 = some (entryBA, .nxdomain) := by decide +kernel
  have hwildcard : index.lookup starA .any 0 = some (entryA, .nxdomain) := by decide +kernel
  have hencloser : deeperAncestor nameCA entryBA.owner entryBA.next = nameA := by decide
  intro e kind hfound
  cases hlookup.symm.trans hfound
  refine ⟨⟨by decide, by decide, by decide⟩, ?_⟩
  intro w hwild
  obtain rfl := hwild.unique (⟨by decide, by decide⟩ : IsWildcard nameA starA)
  exact ⟨entryA, hwildcard, by decide, by decide, by decide⟩

end NsecSample

section Sound

variable {tree : ZoneTree} {q : Name} {t : RRType}

/-- A denial synthesised after any run over genuine records is right, where the index is reliable. -/
theorem synthesise_warranted {actions : List NsecAction} {i : NsecIndex} {maxLen : Nat} {now later : Int} {entry : Entry}
    (hactions : ∀ e now, .insert e now ∈ actions → e.Genuine tree)
    (hrun : NsecIndex.run ⟨[], maxLen⟩ actions = some i) (h : i.synthesise q t now later = some entry)
    (hreliable : i.Reliable q t now) : Warranted tree q t entry := by
  have hgenuine : ∀ e ∈ i.entries, e.Genuine tree := NsecIndex.run_keeps (List.forall_mem_nil _) hactions hrun
  obtain ⟨e, kind, hlookup, hkind⟩ := NsecIndex.synthesise_spec h
  obtain ⟨hmem, henclosed, hdata⟩ := NsecIndex.lookup_spec hlookup
  obtain ⟨z, hz, hissued, hzone⟩ := hgenuine e hmem
  rw [hissued] at henclosed
  have hexcept := hreliable e kind hlookup
  refine ⟨z, ?_⟩
  rcases hkind with ⟨hrcode, rfl⟩ | ⟨hrcode, rfl⟩
  · obtain ⟨hdenies, hwildcards⟩ := hexcept
    have habsent := hdenies.absent hzone henclosed.2.1
    have hauth : tree.Authority z q := ⟨hz, henclosed, fun d hd => habsent.2 d hd.occludes⟩
    have hclosest := hzone.closestEncloser hdenies.1 henclosed.2.1 habsent
    refine ⟨hauth, .inl ⟨hrcode, habsent, ?_⟩⟩
    intro c w hclosest' hwild
    obtain rfl := hclosest.unique hclosest'
    obtain ⟨e', hlookup', hdenies'⟩ := hwildcards w hwild
    obtain ⟨hmem', henclosed', -⟩ := NsecIndex.lookup_spec hlookup'
    obtain ⟨z', hz', hissued', hzone'⟩ := hgenuine e' hmem'
    rw [hissued'] at henclosed'
    have habsent' := hdenies'.absent hzone' hwild.1
    obtain rfl := eq_of_absent_wildcard hauth hclosest habsent.2 hwild hz' henclosed' habsent'
    exact habsent'.1
  · obtain ⟨rfl, hcname, htype⟩ := hdata rfl
    rw [hzone.types] at hcname htype
    have hcut : ∀ d, z.Delegation d → ¬d.Encloses e.owner := by
      intro d hd hdq
      obtain rfl := hzone.signed.2 d hd.occludes hdq
      refine hexcept ⟨(hzone.types .ns).mpr hd.2.2, fun hsoa => hd.2.1 ?_⟩
      exact (z.soa e.owner hd.1.1).mp ((hzone.types .soa).mp hsoa)
    exact ⟨⟨hz, henclosed, hcut⟩, .inr ⟨hrcode, hzone.signed.1, htype, hcname⟩⟩

end Sound

open NsecSample in
theorem synthesise_warranted_sample :
    ∃ entry, index.synthesise nameCA .a 0 0 = some entry ∧
      Warranted tree nameCA .a entry := by
  have hsynth : (index.synthesise nameCA .a 0 0).isSome := by decide +kernel
  obtain ⟨entry, hentry⟩ := Option.isSome_iff_exists.mp hsynth
  exact ⟨entry, hentry, synthesise_warranted genuine run_actions hentry reliable⟩

open NsecSample in
/-- The parent's record at the delegation of `b.a.` is taken as proof that `b.a.` has no address. -/
theorem synthesise_denies_delegated :
    (∀ e now, .insert e now ∈ actions → e.Genuine tree) ∧
      newNSECIndex.run actions = some index ∧
      ∃ entry, index.synthesise nameBA .a 0 0 = some entry ∧ entry.rcode = .noError ∧
        entry.ad = true ∧ ¬Warranted tree nameBA .a entry := by
  refine ⟨genuine, run_actions, ?_⟩
  have hsynth : (index.synthesise nameBA .a 0 0).map (fun e => (e.rcode, e.ad)) =
      some (.noError, true) := by
    decide +kernel
  obtain ⟨entry, hentry, hfields⟩ := Option.map_eq_some_iff.mp hsynth
  obtain ⟨hrcode, had⟩ := Prod.mk.inj hfields
  refine ⟨entry, hentry, hrcode, had, ?_⟩
  rintro ⟨z, ⟨hz, -, hcut⟩, hwarranted⟩
  rcases hz with rfl | rfl
  · exact hcut nameBA delegation_nameBA (by decide)
  · rcases hwarranted with ⟨hnx, -⟩ | ⟨-, -, hmissing, -⟩
    · exact absurd (hrcode.symm.trans hnx) (by decide)
    · exact hmissing (by decide)

end Acidns.Recursive
