import Acidns.Authoritative.Update
import Acidns.Dnssec.Canonical

/-!
# Looking up a name in a zone

`lookup` of `authoritative/authoritative.go`: a referral if a zone cut is found above the name that is asked for,
and else the records of the name, after CNAME and DNAME steps, a wildcard's records, or a negative answer.
-/

namespace Acidns

variable {n m p : Name}

namespace Name

variable {α : Type} {f : Name → Option α} {x : α} {fuel : Nat}

/-- The loop from a name to the root that ends where `f` finds something. -/
def climbLoop (f : Name → Option α) : (fuel : Nat) → (cur : Name) → Option α
  | 0, _ => none
  | fuel + 1, cur => (f cur).or (cur.parent.bind (climbLoop f fuel))

def climb (f : Name → Option α) (n : Name) : Option α := climbLoop f (n.wire.length + 1) n

theorem isValid_of_parent (h : n.parent = some p) : n.isValid = true := by
  grind [parent, List.length_pos_of_ne_nil, isValid]

section

variable (hn : n.isValid)

include hn

theorem encloses_parent_iff (h : n.parent = some p) : m.Encloses p ↔ m.Encloses n ∧ m ≠ n := by
  grind [labels_of_parent, List.length_cons, encloses_iff_parent, Encloses]

theorem eq_of_parent_none (h : n.parent = none) (hm : m.Encloses n) : m = n := by
  grind [encloses_iff_parent]

theorem climbLoop_eq_some_iff (hfuel : n.labels.length < fuel) : climbLoop f fuel n = some x ↔
      ∃ m, m.Encloses n ∧ f m = some x ∧ ∀ m', m'.Encloses n → m.Encloses m' → m' ≠ m → f m' = none := by
  induction fuel generalizing n with
  | zero => omega
  | succ fuel ih =>
    rw [climbLoop]
    cases hf : f n with
    | some x' =>
      constructor
      · intro h
        refine ⟨n, .refl hn, hf.trans h, fun m' hm' hle hne => absurd (hm'.antisymm hle) hne⟩
      · rintro ⟨m, hm, ha, hdeep⟩
        by_cases heq : n = m
        · rw [← ha, ← heq, hf]
          rfl
        · rw [hdeep n (.refl hn) hm heq] at hf
          cases hf
    | none =>
      rw [Option.none_or]
      have hother : ∀ {m}, f m = some x → m ≠ n := by
        rintro m ha rfl
        rw [hf] at ha
        cases ha
      cases hp : n.parent with
      | none => grind [eq_of_parent_none]
      | some p =>
        obtain ⟨hvalid, l, hlabels⟩ := labels_of_parent hn hp
        rw [Option.bind_some, ih hvalid (by rw [hlabels, List.length_cons] at hfuel; omega)]
        simp only [encloses_parent_iff hn hp]
        refine exists_congr fun m => ⟨?_, ?_⟩
        · grind
        · rintro ⟨hm, ha, hdeep⟩
          exact ⟨⟨hm, hother ha⟩, ha, fun m' hm' => hdeep m' hm'.1⟩

theorem climb_eq_some_iff : n.climb f = some x ↔
      ∃ m, m.Encloses n ∧ f m = some x ∧ ∀ m', m'.Encloses n → m.Encloses m' → m' ≠ m → f m' = none :=
  climbLoop_eq_some_iff hn (by have := length_labels_lt_wire hn; omega)

theorem parent_climb_eq_some_iff : n.parent.bind (climb f) = some x ↔ ∃ m, (m.Encloses n ∧ m ≠ n) ∧ f m = some x ∧
      ∀ m', m'.Encloses n ∧ m' ≠ n → m.Encloses m' → m' ≠ m → f m' = none := by
  cases hp : n.parent with
  | none => grind [eq_of_parent_none]
  | some p =>
    rw [Option.bind_some, climb_eq_some_iff (labels_of_parent hn hp).1]
    simp only [encloses_parent_iff hn hp]

end

end Name

namespace Authoritative

open Recursive (cnameTarget nsTarget)

def dnameTarget (r : Record) : Option Name :=
  match r.rd with
  | .dname target => some target
  | _ => none

/-- The most aliases that one answer follows. -/
def maxCNAMEChain : Nat := 8

/-- The records of `matchRRSet`, with the target of the CNAME if the lookup is not done. -/
def matchRRSet (recs : List Record) (qtype : RRType) : List Record × Option Name :=
  let matched := recs.filter fun r => r.type = qtype
  if matched ≠ [] then (matched, none)
  else if qtype ≠ .cname then
    (recs.findSome? fun r => (cnameTarget r).map fun target => ([r], some target)).getD ([], none)
  else ([], none)

def wildcardKey (encloser : Name) : Bytes :=
  match wildcardOf encloser with
  | .ok n => nameKey n
  | .error _ => []

def rewriteOwners (recs : List Record) (owner : Name) : List Record :=
  recs.map fun r => newRecordClass owner r.class_ r.ttl r.rd

/-- The name under the target of a DNAME. -/
def substituteSuffix (name owner target : Name) : Option Name :=
  if name.labels.length ≤ owner.labels.length then none
  else
    let prefixLen := name.labels.length - owner.labels.length
    if (name.labels.drop prefixLen).map foldLabel ≠ owner.labels.map foldLabel then none
    else (nameFromLabels (name.labels.take prefixLen ++ target.labels)).toOption

/-- One turn of the loop over aliases. -/
inductive Turn where
  | done (ans : List Record)
  | follow (ans : List Record) (target : Name)
  | missing
  deriving DecidableEq

def Turn.ans : Turn → List Record
  | done ans => ans
  | follow ans _ => ans
  | missing => []

def Turn.target : Turn → Option Name
  | follow _ target => some target
  | _ => none

def Turn.of : List Record × Option Name → Turn
  | (ans, none) => .done ans
  | (ans, some target) => .follow ans target

/-- The sections of a response. -/
structure LookupResult where
  answer : List Record
  authority : List Record
  additional : List Record
  rcode : RCODE
  aa : Bool
  deriving DecidableEq

namespace ZoneIndex

variable (z : ZoneIndex)

/-- The deepest existing ancestor. -/
def closestEncloser (name : Name) : Option Name :=
  name.parent.bind (Name.climb fun cur => if nameKey cur ∈ z.namesExist then some cur else none)

def wildcardRecords (name : Name) : Option (List Record) :=
  (z.closestEncloser name).bind fun encloser => z.byName.lookup (wildcardKey encloser)

/-- The walk ends at the first DNAME, also if its target makes too long a name. -/
def findDNAMEAncestor (qname : Name) : Option (Record × Name) :=
  (qname.parent.bind (Name.climb fun cur => (z.recordsAt cur).findSome? fun r =>
    (dnameTarget r).map fun target => (substituteSuffix qname cur target).map fun synth => (r, synth))).join

/-- What ends the walk of `findDelegation` at a name. -/
def delegationAt (cur : Name) : Option (List Record) :=
  if cur.equal z.origin then some []
  else
    let ns := (z.recordsAt cur).filter fun r => r.type = .ns
    if ns ≠ [] then some ns else none

/-- The NS records of a cut above the name. -/
def findDelegation (qname : Name) : List Record := (qname.climb z.delegationAt).getD []

/-- The addresses of the name servers, as far as the zone has them. -/
def collectGlue (nsRecs : List Record) : List Record :=
  nsRecs.flatMap fun ns =>
    match nsTarget ns with
    | some target => (z.recordsAt target).filter fun r => r.type = .a ∨ r.type = .aaaa
    | none => []

/-- The answers at a name and the alias to follow. -/
def turn (qtype : RRType) (current : Name) : Turn :=
  match z.byName.lookup (nameKey current) with
  | some recs => .of (matchRRSet recs qtype)
  | none =>
    if nameKey current ∈ z.namesExist then .done []
    else
      match z.findDNAMEAncestor current with
      | some (dnameRR, synth) => .follow [dnameRR, newRecord current dnameRR.ttl (.cname synth)] synth
      | none =>
        match z.wildcardRecords current with
        | some wcRecs =>
          let (ans, follow) := matchRRSet wcRecs qtype
          .of (rewriteOwners ans current, follow)
        | none => .missing

def lookupLoop (qtype : RRType) : (left chain : Nat) → (current : Name) → (answer : List Record) →
    List Record × List Record × RCODE
  | 0, _, _, answer => (answer, [], .servFail)
  | left + 1, chain, current, answer =>
    match z.turn qtype current with
    | .follow ans target => lookupLoop qtype left (chain + 1) target (answer ++ ans)
    | .done ans =>
      if ans ≠ [] then (answer ++ ans, [], .noError)
      else if chain = 0 then ([], [z.soaRec], .noError)
      else (answer, [], .noError)
    | .missing => if chain = 0 then ([], [z.soaRec], .nxDomain) else (answer, [], .noError)

def lookupAuthoritative (qname : Name) (qtype : RRType) : List Record × List Record × RCODE :=
  z.lookupLoop qtype maxCNAMEChain 0 qname []

/-- A referral, or an authoritative answer. -/
def lookup (qname : Name) (qtype : RRType) : LookupResult :=
  let nsRecs := z.findDelegation qname
  if nsRecs ≠ [] then ⟨[], nsRecs, z.collectGlue nsRecs, .noError, false⟩
  else
    let (answer, authority, rcode) := z.lookupAuthoritative qname qtype
    ⟨answer, authority, [], rcode, true⟩

/-- The names that the loop visits, and what it finds there. -/
def chase (qtype : RRType) : (left : Nat) → (current : Name) → List (Name × Turn)
  | 0, _ => []
  | left + 1, current =>
    (current, z.turn qtype current) ::
      match (z.turn qtype current).target with
      | some target => chase qtype left target
      | none => []

def Absent (name : Name) : Prop :=
  z.byName.lookup (nameKey name) = none ∧ nameKey name ∉ z.namesExist ∧ z.wildcardRecords name = none

instance (name : Name) : Decidable (z.Absent name) := inferInstanceAs (Decidable (_ ∧ _ ∧ _))

variable {z : ZoneIndex} {qtype : RRType} {current final qname : Name} {left chain : Nat} {answer : List Record}
  {front : List (Name × Turn)} {t : Turn}

theorem turn_eq_missing_iff (h : (z.turn qtype n).target = none) : z.turn qtype n = .missing ↔ z.Absent n := by
  unfold turn at h ⊢
  unfold Absent
  split
  · next recs hrecs =>
    rw [hrecs]
    cases matchRRSet recs qtype with
    | mk ans follow => cases follow <;> simp [Turn.of]
  · next hrecs =>
    split
    · next hexists => simp [hexists]
    · next hexists =>
      split
      · next hdname =>
        rw [hrecs] at h
        simp only [if_neg hexists, hdname] at h
        cases h
      · split
        · next wcRecs hwildcard =>
          cases matchRRSet wcRecs qtype with
          | mk ans follow => cases follow <;> simp [Turn.of, hwildcard]
        · next hwildcard => simp [hrecs, hexists, hwildcard]

theorem lookupLoop_follow {ans : List Record} {target : Name} (h : z.turn qtype current = .follow ans target) :
    z.lookupLoop qtype (left + 1) chain current answer = z.lookupLoop qtype left (chain + 1) target (answer ++ ans) := by
  rw [lookupLoop, h]

theorem lookupLoop_stop (h : (z.turn qtype current).target = none) :
    z.lookupLoop qtype (left + 1) chain current answer = z.lookupLoop qtype 1 chain current answer := by
  grind [lookupLoop, Turn.target]

theorem lookupLoop_of_chase (h : z.chase qtype left current = front ++ [(final, t)]) (ht : t.target = none)
    (chain : Nat) (answer : List Record) :
    z.turn qtype final = t ∧ z.lookupLoop qtype left chain current answer =
      z.lookupLoop qtype 1 (chain + front.length) final (answer ++ front.flatMap (·.2.ans)) := by
  induction left generalizing current front chain answer with
  | zero => simp [chase] at h
  | succ left ih =>
    rw [chase] at h
    cases front with
    | nil =>
      obtain ⟨hhead, -⟩ := List.cons.inj h
      cases hhead
      exact ⟨rfl, by simpa using lookupLoop_stop ht⟩
    | cons s front =>
      obtain ⟨rfl, htail⟩ := List.cons.inj h
      cases hturn : z.turn qtype current with
      | follow ans target =>
        rw [hturn] at htail
        obtain ⟨hfinal, hloop⟩ := ih htail (chain + 1) (answer ++ ans)
        refine ⟨hfinal, (lookupLoop_follow hturn).trans (hloop.trans ?_)⟩
        rw [List.length_cons, List.flatMap_cons, List.append_assoc, Nat.add_right_comm, Nat.add_assoc]
        rfl
      | done ans =>
        rw [hturn] at htail
        simp [Turn.target] at htail
      | missing =>
        rw [hturn] at htail
        simp [Turn.target] at htail

/-- NXDOMAIN and the SOA are for a lookup that follows no CNAME or DNAME; one that does ends with NOERROR and an empty
authority section, whatever the last name is. -/
theorem lookupAuthoritative_after_chase (h : z.chase qtype maxCNAMEChain qname = front ++ [(final, t)])
    (ht : t.target = none) :
    (z.lookupAuthoritative qname qtype).1 = front.flatMap (·.2.ans) ++ t.ans ∧
    (z.lookupAuthoritative qname qtype).2.1 = (if front = [] ∧ t.ans = [] then [z.soaRec] else []) ∧
    ((z.lookupAuthoritative qname qtype).2.2 = .nxDomain ↔ front = [] ∧ z.Absent final) ∧
    ((z.lookupAuthoritative qname qtype).2.2 ≠ .nxDomain → (z.lookupAuthoritative qname qtype).2.2 = .noError) := by
  obtain ⟨rfl, hloop⟩ := lookupLoop_of_chase h ht 0 []
  have hmissing := turn_eq_missing_iff ht
  rw [lookupAuthoritative, hloop, lookupLoop, Nat.zero_add, List.nil_append, ← hmissing]
  cases hturn : z.turn qtype final with
  | follow ans target =>
    rw [hturn] at ht
    cases ht
  | done ans => by_cases hans : ans = [] <;> by_cases hfront : front = [] <;> simp [Turn.ans, hans, hfront] <;> decide
  | missing =>
    by_cases hfront : front = []
    · simp [Turn.ans, hfront]
    · simp [Turn.ans, hfront]
      decide

end ZoneIndex

namespace LookupSample

open Name.Short

def soa : Record := newRecord a second (.soa ⟨a, a, 1, second, second, second, second⟩)

def zoneOf (records : List Record) : ZoneIndex :=
  (indexZone ⟨a, soa :: records⟩).toOption.getD ⟨a, soa, ∅, []⟩

def cname (owner target : Name) : Record := newRecord owner second (.cname target)

end LookupSample

open LookupSample Name.Short in
theorem lookupAuthoritative_after_chase_sample :
    (zoneOf [cname ba a]).lookupAuthoritative ba .a = ([cname ba a], [], .noError) := by
  have hchase : (zoneOf [cname ba a]).chase .a maxCNAMEChain ba = [(ba, .follow [cname ba a] a)] ++ [(a, .done [])] := by
    decide +kernel
  obtain ⟨hanswer, hauthority, hrcode, hnoError⟩ := ZoneIndex.lookupAuthoritative_after_chase hchase rfl
  refine Prod.ext hanswer (Prod.ext hauthority (hnoError fun h => ?_))
  exact List.cons_ne_nil _ _ (hrcode.mp h).1

open LookupSample Name.Short in
/-- An alias of a name of the zone that does not exist: NOERROR without the SOA. -/
theorem lookupAuthoritative_alias_of_absent :
    (zoneOf [cname ba ca]).lookupAuthoritative ba .a = ([cname ba ca], [], .noError) ∧ (zoneOf [cname ba ca]).Absent ca ∧
      a.Encloses ca := by
  decide +kernel

end Authoritative

end Acidns
