import Acidns.Recursive.Response

/-!
# The bailiwick filter

What `bailiwickFilter` of `recursive/recursive.go` keeps of a response depends on what its sections hold and, if
their SOA records have one owner, not on the order in which they hold it.
-/

namespace Acidns

open List

theorem Name.Encloses.of_wireLen_le {m n q : Name} (hm : m.Encloses q) (hn : n.Encloses q) (h : m.wireLen ≤ n.wireLen) :
    m.Encloses n := by
  refine ⟨hm.1, hn.1, (suffix_or_suffix_of_suffix hm.2.2 hn.2.2).elim id fun hsuffix => ?_⟩
  rw [wireLen, if_pos hm.1, wireLen, if_pos hn.1, wire_eq_encode hm.1, wire_eq_encode hn.1] at h
  obtain ⟨front, hfront⟩ := hsuffix
  cases front with
  | nil => exact hfront ▸ suffix_rfl
  | cons l front =>
    have hlt := Labels.length_encode_lt_cons l (front ++ n.labels)
    have hle := length_encode_le_of_suffix (suffix_append front n.labels)
    rw [← hfront, cons_append] at h
    omega

namespace Recursive

variable {qname : Name} {answers authority authority' : List Record} {r : Record} {resp : Message}

/-! ### The answer section -/

theorem Reaches.mono {start b : Bytes} {answers' : List Record} (h : Reaches answers start b)
    (hsub : answers ⊆ answers') : Reaches answers' start b := by
  induction h with
  | refl => exact .refl
  | step _ hr htarget ih => exact .step ih (hsub hr) htarget

/-! ### The deepest owner above the query name -/

/-- One step of `deepestAncestor`. -/
def deeper (qname best : Name) (r : Record) : Name :=
  if inBailiwick r.name qname ∧ (!best.isValid ∨ best.wireLen < r.name.wireLen) then r.name else best

theorem deeper_spec {best : Name} (hbest : best.isValid = true → best.Encloses qname) (r : Record) :
    (deeper qname best r = best ∨ deeper qname best r = r.name ∧ r.name.Encloses qname) ∧
    (best.isValid = true → best.Encloses (deeper qname best r)) ∧
    (r.name.Encloses qname → r.name.Encloses (deeper qname best r)) := by
  unfold deeper
  split
  · next h =>
    have hr := inBailiwick_iff.mp h.1
    refine ⟨.inr ⟨rfl, hr⟩, fun hvalid => ?_, fun _ => .refl hr.1⟩
    have hlt : best.wireLen < r.name.wireLen := by simpa [hvalid] using h.2
    exact (hbest hvalid).of_wireLen_le hr (Nat.le_of_lt hlt)
  · next h =>
    refine ⟨.inl rfl, fun hvalid => .refl hvalid, fun hr => ?_⟩
    have hnot := not_or.mp fun hor => h ⟨inBailiwick_iff.mpr hr, hor⟩
    have hvalid : best.isValid = true := by simpa using hnot.1
    exact hr.of_wireLen_le (hbest hvalid) (Nat.not_lt.mp hnot.2)

theorem foldl_deeper {best : Name} (hbest : best.isValid = true → best.Encloses qname) :
    (authority.foldl (deeper qname) best = best ∨
      ∃ r ∈ authority, r.name = authority.foldl (deeper qname) best ∧ r.name.Encloses qname) ∧
    (best.isValid = true → best.Encloses (authority.foldl (deeper qname) best)) ∧
    ∀ r ∈ authority, r.name.Encloses qname → r.name.Encloses (authority.foldl (deeper qname) best) := by
  induction authority generalizing best with
  | nil => exact ⟨.inl rfl, fun h => .refl h, forall_mem_nil _⟩
  | cons r authority ih =>
    obtain ⟨hor, hkeeps, hreaches⟩ := deeper_spec hbest r
    have hnext : (deeper qname best r).isValid = true → (deeper qname best r).Encloses qname := by
      rcases hor with heq | ⟨heq, hr⟩ <;> rw [heq]
      · exact hbest
      · exact fun _ => hr
    obtain ⟨hor', hkeeps', hall⟩ := ih hnext
    rw [foldl_cons]
    refine ⟨?_, fun h => (hkeeps h).trans (hkeeps' (hkeeps h).2.1), forall_mem_cons.mpr ⟨fun h => ?_, hall⟩⟩
    · grind
    · exact (hreaches h).trans (hkeeps' (hreaches h).2.1)

theorem deepestAncestor_eq_of_perm (h : authority.Perm authority') :
    deepestAncestor authority qname = deepestAncestor authority' qname := by
  have hzero : Name.zero.isValid = true → Name.zero.Encloses qname := fun h => by cases h
  have hspec (auth : List Record) : deepestAncestor auth qname = .zero ∨
      ∃ r ∈ auth, r.name = deepestAncestor auth qname ∧ r.name.Encloses qname := (foldl_deeper hzero).1
  have hdeep (auth : List Record) : ∀ r ∈ auth, r.name.Encloses qname → r.name.Encloses (deepestAncestor auth qname) :=
    (foldl_deeper hzero).2.2
  rcases hspec authority with heq | ⟨r, hr, hname, hencloses⟩
  · rcases hspec authority' with heq' | ⟨r, hr, -, hencloses⟩
    · rw [heq, heq']
    · have habsurd := hdeep authority r (h.mem_iff.mpr hr) hencloses
      rw [heq] at habsurd
      cases habsurd.2.1
  · have hbelow := hdeep authority' r (h.mem_iff.mp hr) hencloses
    rcases hspec authority' with heq' | ⟨r', hr', hname', hencloses'⟩
    · rw [heq'] at hbelow
      cases hbelow.2.1
    · have habove := hdeep authority r' (h.mem_iff.mpr hr') hencloses'
      rw [← hname] at habove ⊢
      rw [← hname'] at hbelow ⊢
      exact hbelow.antisymm habove

/-! ### The SOA of a denial -/

theorem denialZone_spec (h : (denialZone qname authority).isValid = true) :
    ∃ soa ∈ authority, soa.type = .soa ∧ soa.name = denialZone qname authority ∧ soa.name.Encloses qname := by
  unfold denialZone at h ⊢
  cases hfind : authority.find? fun r => r.type = .soa with
  | none =>
    rw [hfind] at h
    simp only [Option.map_none, Option.getD_none, show Name.zero.isValid = false from rfl, Bool.false_eq_true, false_and,
      ite_self] at h
  | some soa =>
    rw [hfind] at h
    simp only [Option.map_some, Option.getD_some] at h ⊢
    have hmem := mem_of_find?_eq_some hfind
    have htype : soa.type = .soa := by simpa using find?_some hfind
    by_cases hout : soa.name.isValid = true ∧ (!inBailiwick soa.name qname) = true
    · rw [if_pos hout, ite_self] at h
      cases h
    · rw [if_neg hout] at h ⊢
      by_cases hroot : soa.name.isRoot = true ∧ (!qname.isRoot) = true
      · rw [if_pos hroot] at h
        cases h
      · rw [if_neg hroot] at h ⊢
        refine ⟨soa, hmem, htype, rfl, inBailiwick_iff.mp ?_⟩
        simpa [h] using hout

/-- The SOA records have one owner. -/
def OneSOAOwner (authority : List Record) : Prop :=
  ∀ r ∈ authority, ∀ r' ∈ authority, r.type = .soa → r'.type = .soa → r.name = r'.name

theorem denialZone_eq_of_perm (hsoa : OneSOAOwner authority) (h : authority.Perm authority') :
    denialZone qname authority = denialZone qname authority' := by
  suffices howner : (authority.find? fun r => r.type = .soa).map Record.name =
      (authority'.find? fun r => r.type = .soa).map Record.name by rw [denialZone, denialZone, howner]
  cases hfind : authority.find? fun r => r.type = .soa with
  | none => grind
  | some soa =>
    have hmem := mem_of_find?_eq_some hfind
    have htype : soa.type = .soa := by simpa using find?_some hfind
    cases hfind' : authority'.find? fun r => r.type = .soa with
    | none => exact absurd htype (by simpa using find?_eq_none.mp hfind' soa (h.mem_iff.mp hmem))
    | some soa' =>
      have htype' : soa'.type = .soa := by simpa using find?_some hfind'
      exact congrArg some (hsoa soa hmem soa' (h.mem_iff.mpr (mem_of_find?_eq_some hfind')) htype htype')

/-! ### The filter -/

theorem keepAuthority_spec (h : keepAuthority qname (denialZone qname authority) r = true) :
    (r.name.isRoot = true → qname.isRoot = true) ∧ (r.name.Encloses qname ∨ isDNSSECDenialType r.type = true ∧
      ∃ soa ∈ authority, soa.type = .soa ∧ soa.name.Encloses qname ∧ soa.name.Encloses r.name) := by
  grind [keepAuthority, inBailiwick_iff, denialZone_spec]

theorem filter_perm {records records' : List Record} {p p' : Record → Bool} (h : records.Perm records')
    (hp : ∀ r, p r = p' r) : (records.filter p).Perm (records'.filter p') :=
  funext hp ▸ h.filter p

/-- The answers kept are those whose owners the CNAMEs of the section reach; the authority records are above the query
name or denials below an SOA above it; the additional records belong to targets of kept records. Reordering the
sections reorders the result, if the SOA records have one owner. -/
theorem bailiwickFilter_tight (qname : Name) (resp : Message) :
    (∀ r, r ∈ (bailiwickFilter qname resp).1 ↔
      r ∈ resp.answers ∧ Reaches resp.answers (nameKey qname) (nameKey r.name)) ∧
    (∀ r ∈ (bailiwickFilter qname resp).2.1, r ∈ resp.authorities ∧ (r.name.isRoot = true → qname.isRoot = true) ∧
      (r.name.Encloses qname ∨ isDNSSECDenialType r.type = true ∧
        ∃ soa ∈ resp.authorities, soa.type = .soa ∧ soa.name.Encloses qname ∧ soa.name.Encloses r.name)) ∧
    (∀ r ∈ (bailiwickFilter qname resp).2.2, r ∈ resp.additionals ∧ (r.type ≠ .opt → ∃ target,
      nameKey target = nameKey r.name ∧ ((∃ c ∈ (bailiwickFilter qname resp).1, cnameTarget c = some target) ∨
        ∃ n ∈ (bailiwickFilter qname resp).2.1, nsTarget n = some target))) ∧
    ∀ resp' : Message, resp.answers.Perm resp'.answers → resp.authorities.Perm resp'.authorities →
      resp.additionals.Perm resp'.additionals → OneSOAOwner resp.authorities →
        (bailiwickFilter qname resp).1.Perm (bailiwickFilter qname resp').1 ∧
        (bailiwickFilter qname resp).2.1.Perm (bailiwickFilter qname resp').2.1 ∧
        (bailiwickFilter qname resp).2.2.Perm (bailiwickFilter qname resp').2.2 := by
  refine ⟨fun r => ?_, fun r hr => ?_, fun r hr => ?_, fun resp' hanswers hauthorities hadditionals hsoa => ?_⟩
  · rw [← mem_cnameChain]
    exact mem_filter.trans (and_congr_right fun _ => decide_eq_true_iff)
  · obtain ⟨hmem, hkeep⟩ := mem_filter.mp hr
    exact ⟨hmem, keepAuthority_spec hkeep⟩
  · obtain ⟨hmem, hkeep⟩ := mem_filter.mp hr
    refine ⟨hmem, fun hopt => ?_⟩
    simp only [keepAdditional, hopt, decide_false, Bool.false_or, Bool.and_eq_true, decide_eq_true_eq] at hkeep
    obtain ⟨target, htarget, hkey⟩ := mem_map.mp hkeep.1
    refine ⟨target, hkey, (mem_append.mp htarget).imp ?_ ?_⟩ <;> exact mem_filterMap.mp
  · have hfirst : (bailiwickFilter qname resp).1.Perm (bailiwickFilter qname resp').1 := by
      refine filter_perm hanswers fun r => decide_eq_decide.mpr ?_
      rw [mem_cnameChain, mem_cnameChain]
      exact ⟨fun h => h.mono hanswers.subset, fun h => h.mono hanswers.symm.subset⟩
    have hsecond : (bailiwickFilter qname resp).2.1.Perm (bailiwickFilter qname resp').2.1 :=
      filter_perm hauthorities fun r => by rw [denialZone_eq_of_perm hsoa hauthorities]
    refine ⟨hfirst, hsecond, filter_perm hadditionals fun r => ?_⟩
    have hreferenced := ((hfirst.filterMap cnameTarget).append (hsecond.filterMap nsTarget)).map nameKey
    have hzone := @deepestAncestor_eq_of_perm qname _ _ hsecond
    simp only [bailiwickFilter] at hreferenced hzone
    simp only [keepAdditional, hzone, hreferenced.mem_iff]

end Recursive

end Acidns
