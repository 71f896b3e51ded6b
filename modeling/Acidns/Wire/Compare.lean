import Acidns.Dnssec.Canonical
import Acidns.Lib.Sorting
import Acidns.Wire.Message

/-!
# Messages up to order

`wire/compare.go`. Two messages are compared section by section after sorting. The order on records leaves out the
TTL, which the comparison of two records does not, and `slices.SortFunc` may put records that compare equal in any
order.
-/

namespace Acidns

open List Sorting

def compareRecords (a b : Record) : Ordering :=
  (compareBytes (a.name.appendWire []) (b.name.appendWire [])).then <| (compare a.type b.type).then <|
    (compare a.class_ b.class_).then (compareBytes a.rd.packed b.rd.packed)

def compareOptions (x y : EDNSOption) : Ordering := (compare x.code y.code).then (compareBytes x.data y.data)

instance : Std.TransCmp compareRecords :=
  inferInstanceAs <| Std.TransCmp <| compareLex (compareOn fun r : Record => r.name.appendWire []) <|
    compareLex (compareOn Record.type) <| compareLex (compareOn Record.class_) (compareOn fun r => r.rd.packed)

instance : Std.TransCmp compareOptions :=
  inferInstanceAs <| Std.TransCmp <| compareLex (compareOn EDNSOption.code) (compareOn EDNSOption.data)

/-- `slices.SortFunc` at the two comparisons. -/
structure Sorts where
  records : SortFunc compareRecords
  options : SortFunc compareOptions

def optionEqual (x y : EDNSOption) : Bool := x.code = y.code && x.data = y.data

def recordEqual (a b : Record) : Bool :=
  a.name.equal b.name && a.type = b.type && a.class_ = b.class_ && a.ttl = b.ttl && a.rd.packed = b.rd.packed

def questionsEqual (a b : List Question) : Bool :=
  a.length = b.length ∧ (a.zip b).all fun p => p.1.name.equal p.2.name ∧ p.1.typ = p.2.typ ∧ p.1.class_ = p.2.class_

def questionsMatch (a b : Message) : Bool := questionsEqual a.questions b.questions

variable (sorts : Sorts)

def recordsSectionEqual (a b : List Record) : Bool :=
  a.length = b.length && ((sorts.records.sort a).zip (sorts.records.sort b)).all fun r => recordEqual r.1 r.2

def ednsEqual (a b : Message) : Bool :=
  match a.edns, b.edns with
  | none, none => true
  | some ea, some eb =>
    ea.udpSize = eb.udpSize && ea.extRCODE = eb.extRCODE && ea.version = eb.version && ea.do_ = eb.do_ &&
      ea.opts.length = eb.opts.length &&
      ((sorts.options.sort ea.opts).zip (sorts.options.sort eb.opts)).all fun o => optionEqual o.1 o.2
  | _, _ => false

def messageEqual (a b : Message) : Bool :=
  a.id = b.id && a.flags = b.flags && questionsEqual a.questions b.questions &&
    recordsSectionEqual sorts a.answers b.answers && recordsSectionEqual sorts a.authorities b.authorities &&
    recordsSectionEqual sorts a.additionals b.additionals && ednsEqual sorts a b

/-- The records of each section and the options in another order. -/
structure Permuted (b b' : Message) : Prop where
  id : b'.id = b.id
  flags : b'.flags = b.flags
  questions : b'.questions = b.questions
  answers : b'.answers.Perm b.answers
  authorities : b'.authorities.Perm b.authorities
  additionals : b'.additionals.Perm b.additionals
  edns : (b.edns = none ∧ b'.edns = none) ∨
    ∃ e opts, b.edns = some e ∧ b'.edns = some { e with opts } ∧ opts.Perm e.opts

/-! ### What is compared -/

/-- What `recordEqual` looks at. -/
def recordKey (r : Record) : Name × RRType × RRClass × Duration × Bytes := (r.name, r.type, r.class_, r.ttl, r.rd.packed)

theorem recordEqual_iff (a b : Record) : recordEqual a b = true ↔ recordKey a = recordKey b := by
  simp [recordEqual, recordKey, Name.equal_iff, and_assoc]

theorem compareBytes_self (a : Bytes) : compareBytes a a = .eq := (compares_compareBytes a a).eq_eq.mpr rfl

theorem compareRecords_of_key (a b : Record) (h : recordKey a = recordKey b) : compareRecords a b = .eq := by
  simp only [recordKey, Prod.mk.injEq] at h
  simp [compareRecords, h, compareBytes_self]

theorem compareOptions_eq_eq (x y : EDNSOption) : compareOptions x y = .eq ↔ x = y := by
  obtain ⟨code, data⟩ := x
  obtain ⟨code', data'⟩ := y
  rw [compareOptions, Ordering.then_eq_eq, (compares_compareBytes _ _).eq_eq, EDNSOption.mk.injEq]
  exact and_congr_left fun _ => Std.compare_eq_iff_eq

section Equal

variable {sorts} {a b : Message} {as bs : List Record}

theorem recordsSectionEqual_iff : recordsSectionEqual sorts as bs = true ↔
    (sorts.records.sort as).map recordKey = (sorts.records.sort bs).map recordKey := by
  rw [recordsSectionEqual, Bool.and_eq_true, decide_eq_true_eq, ← all_zip_iff recordEqual_iff,
    (sorts.records.perm as).length_eq, (sorts.records.perm bs).length_eq]

theorem optionEqual_iff (x y : EDNSOption) : optionEqual x y = true ↔ id x = id y := by
  obtain ⟨code, data⟩ := x
  obtain ⟨code', data'⟩ := y
  simp [optionEqual]

theorem optionsEqual_iff {os os' : List EDNSOption} : (os.length = os'.length ∧
    ((sorts.options.sort os).zip (sorts.options.sort os')).all (fun o => optionEqual o.1 o.2) = true) ↔
      sorts.options.sort os = sorts.options.sort os' := by
  rw [← (sorts.options.perm os).length_eq, ← (sorts.options.perm os').length_eq, all_zip_iff optionEqual_iff, map_id,
    map_id]

theorem recordsSectionEqual_self : recordsSectionEqual sorts as as = true := recordsSectionEqual_iff.mpr rfl

theorem questionsEqual_self (qs : List Question) : questionsEqual qs qs = true := by
  have hsame : ∀ p ∈ qs.zip qs, p.1 = p.2 := by
    induction qs with
    | nil => exact forall_mem_nil _
    | cons q qs ih => exact forall_mem_cons.mpr ⟨rfl, ih⟩
  simp only [questionsEqual, all_eq_true, decide_eq_true_eq, true_and]
  intro p hp
  rw [hsame p hp]
  exact ⟨Name.equal_iff.mpr rfl, rfl, rfl⟩

theorem ednsEqual_permuted {b' : Message} (hperm : Permuted b b') : ednsEqual sorts a b = ednsEqual sorts a b' := by
  rcases hperm.edns with ⟨hb, hb'⟩ | ⟨e, opts, hb, hb', hopts⟩
  · simp only [ednsEqual, hb, hb']
  · have hsort : sorts.options.sort opts = sorts.options.sort e.opts := by
      have h := sorts.options.map_sort_perm (fun x y (hxy : id x = id y) => (compareOptions_eq_eq x y).mpr hxy) hopts
        fun x _ y _ => (compareOptions_eq_eq x y).mp
      rwa [map_id, map_id] at h
    cases ha : a.edns with
    | none => simp only [ednsEqual, ha, hb, hb']
    | some ea => simp only [ednsEqual, ha, hb, hb', hsort, hopts.length_eq]

theorem ednsEqual_self : ednsEqual sorts a a = true := by
  cases ha : a.edns with
  | none => simp [ednsEqual, ha]
  | some e =>
    simp only [ednsEqual, ha, decide_true, Bool.true_and]
    exact (optionsEqual_iff.mpr rfl).2

theorem messageEqual_self : messageEqual sorts a a = true := by
  simp only [messageEqual, questionsEqual_self, recordsSectionEqual_self, ednsEqual_self, decide_true, Bool.and_self]

def DecidedTies (rs : List Record) : Prop :=
  ∀ r ∈ rs, ∀ s ∈ rs, compareRecords r s = .eq → recordEqual r s = true

theorem recordsSectionEqual_perm {bs' : List Record} (hties : DecidedTies bs) (hperm : bs'.Perm bs) :
    recordsSectionEqual sorts as bs = recordsSectionEqual sorts as bs' := by
  have hsort := sorts.records.map_sort_perm compareRecords_of_key hperm fun r hr s hs htie =>
    (recordEqual_iff r s).mp (hties r hr s hs htie)
  rw [Bool.eq_iff_iff, recordsSectionEqual_iff, recordsSectionEqual_iff, hsort]

theorem decidedTies_of_perm (h : ∀ bs', bs'.Perm bs → recordsSectionEqual sorts bs bs' = true) : DecidedTies bs :=
  fun r hr s hs htie => (recordEqual_iff r s).mpr <| sorts.records.ties_of_map_sort
    (fun bs' hperm => (recordsSectionEqual_iff.mp (h bs' hperm)).symm) hr hs htie

end Equal

/-- **Order does not matter.** Comparing with a message gives the same for every order of its records and options,
exactly if no section has records that the order does not tell apart and `recordEqual` does. -/
theorem messageEqual_permuted_iff (b : Message) :
    (∀ a b', Permuted b b' → messageEqual sorts a b = messageEqual sorts a b') ↔
      DecidedTies b.answers ∧ DecidedTies b.authorities ∧ DecidedTies b.additionals := by
  constructor
  · intro h
    have hsame : ∀ b', Permuted b b' → messageEqual sorts b b' = true := fun b' hperm =>
      (h b b' hperm).symm.trans messageEqual_self
    simp only [messageEqual, Bool.and_eq_true] at hsame
    have hedns : (b.edns = none ∧ b.edns = none) ∨
        ∃ e opts, b.edns = some e ∧ b.edns = some { e with opts } ∧ opts.Perm e.opts := by
      cases hb : b.edns with
      | none => exact .inl ⟨rfl, rfl⟩
      | some e => exact .inr ⟨e, e.opts, rfl, rfl, .refl _⟩
    refine ⟨@decidedTies_of_perm sorts _ fun bs' hperm => ?_, @decidedTies_of_perm sorts _ fun bs' hperm => ?_,
      @decidedTies_of_perm sorts _ fun bs' hperm => ?_⟩
    · exact (hsame { b with answers := bs' } ⟨rfl, rfl, rfl, hperm, .refl _, .refl _, hedns⟩).1.1.1.2
    · exact (hsame { b with authorities := bs' } ⟨rfl, rfl, rfl, .refl _, hperm, .refl _, hedns⟩).1.1.2
    · exact (hsame { b with additionals := bs' } ⟨rfl, rfl, rfl, .refl _, .refl _, hperm, hedns⟩).1.2
  · rintro ⟨hanswers, hauthorities, hadditionals⟩ a b' hperm
    rw [messageEqual, messageEqual, hperm.id, hperm.flags, hperm.questions,
      recordsSectionEqual_perm hanswers hperm.answers, recordsSectionEqual_perm hauthorities hperm.authorities,
      recordsSectionEqual_perm hadditionals hperm.additionals, ednsEqual_permuted hperm]

def insertionSorts : Sorts := ⟨insertion compareRecords, insertion compareOptions⟩

def twoTTLs (ttl ttl' : Duration) : Message :=
  ⟨0, 0, [], [⟨.root, 1, ttl, .nsap [9]⟩, ⟨.root, 1, ttl', .nsap [9]⟩], [], [], none⟩

theorem messageEqual_twoTTLs : Permuted (twoTTLs 60 120) (twoTTLs 120 60) ∧
    messageEqual insertionSorts (twoTTLs 60 120) (twoTTLs 120 60) = false := by
  refine ⟨⟨rfl, rfl, rfl, .swap _ _ _, .refl _, .refl _, .inl ⟨rfl, rfl⟩⟩, ?_⟩
  decide +kernel

end Acidns
