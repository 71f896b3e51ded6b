import Acidns.Zonefile.Directives

/-!
# What `$GENERATE` appends

`handleGenerate` of `zonefile/generate.go` counts the values of its range before the loop. The loop ends with
the last of them unless the value behind it passes the top of the 64-bit `int`: the guard then compares a value
that has wrapped.
-/

namespace Acidns.Zonefile

/-! ### Ranges -/

namespace GenerateRange

structure Valid (range : GenerateRange) : Prop where
  start_nonneg : 0 ≤ range.start
  start_le : range.start ≤ range.stop
  stop_lt : range.stop < 2 ^ 63
  step_pos : 0 < range.step

def value (range : GenerateRange) (i : Nat) : Int := range.start + i * range.step

def values (range : GenerateRange) : List Int := (List.range range.iterations.toNat).map range.value

def last (range : GenerateRange) : Nat := ((range.stop - range.start) / range.step).toNat

/-- The count fits into an `int`, and so does the value behind the last one unless the last one is the stop. -/
def Exact (range : GenerateRange) : Prop :=
  range.last + 1 < 2 ^ 63 ∧ (range.value range.last = range.stop ∨ range.value (range.last + 1) < 2 ^ 63)

instance (range : GenerateRange) : Decidable range.Exact := inferInstanceAs (Decidable (_ ∧ _))

variable {range : GenerateRange} {i : Nat}

theorem value_zero : range.value 0 = range.start := by simp [value]

theorem value_succ : range.value (i + 1) = range.value i + range.step := by
  rw [value, value, Int.natCast_add, Int.natCast_one, Int.add_mul, Int.one_mul, Int.add_assoc]

namespace Valid

variable (h : range.Valid)

include h

theorem value_mono {j : Nat} (hij : i ≤ j) : range.value i ≤ range.value j :=
  Int.add_le_add_left (Int.mul_le_mul_of_nonneg_right (Int.ofNat_le.mpr hij) (Int.le_of_lt h.step_pos)) _

theorem value_nonneg : 0 ≤ range.value i :=
  Int.add_nonneg h.start_nonneg (Int.mul_nonneg (Int.natCast_nonneg i) (Int.le_of_lt h.step_pos))

theorem last_cast : (range.last : Int) = (range.stop - range.start) / range.step :=
  Int.toNat_of_nonneg (Int.ediv_nonneg (Int.sub_nonneg_of_le h.start_le) (Int.le_of_lt h.step_pos))

theorem value_last_le : range.value range.last ≤ range.stop := by
  have hle := Int.ediv_mul_le (range.stop - range.start) (Int.ne_of_gt h.step_pos)
  rw [value, h.last_cast]
  omega

theorem stop_lt_value : range.stop < range.value (range.last + 1) := by
  have hlt := Int.lt_ediv_add_one_mul_self (range.stop - range.start) h.step_pos
  rw [value, Int.natCast_add, Int.natCast_one, h.last_cast]
  omega

theorem last_lt : range.last < 2 ^ 63 := by
  have hle : (range.last : Int) ≤ range.value range.last := by
    have hmul := Int.mul_le_mul_of_nonneg_left (show 1 ≤ range.step from h.step_pos) (Int.natCast_nonneg range.last)
    have hstart := h.start_nonneg
    rw [value]
    omega
  have hlast := h.value_last_le
  have hstop := h.stop_lt
  omega

theorem iterations_eq : range.iterations = wrap64 (range.last + 1) := by
  grind [iterations, start_le, last_cast]

end Valid

end GenerateRange

theorem wrap64_of_lt {v : Int} (hnonneg : 0 ≤ v) (hlt : v < 2 ^ 63) : wrap64 v = v := by
  rw [wrap64, Int.bmod_def]
  omega

theorem wrap64_neg {v : Int} (hge : 2 ^ 63 ≤ v) (hlt : v < 2 ^ 64) : wrap64 v < 0 := by
  rw [wrap64, Int.bmod_def]
  omega

theorem parseInt_lt {s : Bytes} {v : Int} (h : parseInt 64 s = .ok v) : v < 2 ^ 63 := by
  grind [parseInt]

theorem parseGenerateStep_pos {s : Bytes} {step : Int} (h : parseGenerateStep s = .ok step) :
    0 < step ∧ step < 2 ^ 63 := by
  unfold parseGenerateStep at h
  split at h
  · cases h
    decide
  · obtain ⟨v, hv, h⟩ := bind_ok h
    have hlt := parseInt_lt (mapError_eq_ok.mp hv)
    split at h
    · cases h
    · cases h
      omega

theorem valid_of_parseGenerateRange {s : Bytes} {range : GenerateRange} (h : parseGenerateRange s = .ok range) :
    range.Valid ∧ range.step < 2 ^ 63 := by
  unfold parseGenerateRange at h
  simp only at h
  split at h
  · cases h
  obtain ⟨start, -, h⟩ := bind_ok h
  obtain ⟨stop, hstop, h⟩ := bind_ok h
  split at h
  · cases h
  split at h
  · cases h
  obtain ⟨step, hstep, h⟩ := bind_ok h
  obtain ⟨hpos, hlt⟩ := parseGenerateStep_pos hstep
  cases h
  have hbounds : 0 ≤ start ∧ start ≤ stop := by omega
  exact ⟨⟨hbounds.1, hbounds.2, parseInt_lt (mapError_eq_ok.mp hstop), hpos⟩, hlt⟩

/-! ### The loop -/

section Loop

variable {texts : Texts} {g : GenerateLine} {p q : Parser} {fuel : Nat} {v : Int}

theorem generateRecord_length (h : generateRecord texts g p v = .ok q) : q.records.length = p.records.length + 1 := by
  obtain ⟨ownerStr, -, h⟩ := bind_ok h
  obtain ⟨owner, -, h⟩ := bind_ok h
  obtain ⟨sub, -, h⟩ := bind_ok h
  obtain ⟨rd, -, h⟩ := bind_ok h
  cases h
  exact List.length_append

theorem foldlM_generateRecord_length {vs : List Int} (h : vs.foldlM (generateRecord texts g) p = .ok q) :
    q.records.length = p.records.length + vs.length := by
  induction vs generalizing p with
  | nil => cases h; rfl
  | cons v vs ih =>
    obtain ⟨p', hrecord, h⟩ := bind_ok h
    rw [ih h, generateRecord_length hrecord, List.length_cons]
    omega

theorem generateLoop_length_lt (h : generateLoop texts g fuel v p = .ok q) : p.records.length < q.records.length := by
  induction fuel generalizing v p with
  | zero => cases h
  | succ fuel ih =>
    obtain ⟨p', hrecord, h⟩ := bind_ok h
    have hlength := generateRecord_length hrecord
    split at h
    · cases h; omega
    split at h
    · cases h; omega
    · have := ih h
      omega

variable (hg : g.range.Valid)

include hg

theorem generateLoop_of_lt {i : Nat} (hi : i < g.range.last) :
    generateLoop texts g (fuel + 1) (g.range.value i) p =
      generateRecord texts g p (g.range.value i) >>= generateLoop texts g fuel (g.range.value (i + 1)) := by
  have hnext : g.range.value (i + 1) ≤ g.range.stop := Int.le_trans (hg.value_mono hi) hg.value_last_le
  have hpos := hg.step_pos
  have hvalue := g.range.value_succ (i := i)
  have hwrap : wrap64 (g.range.value i + g.range.step) = g.range.value (i + 1) := by
    rw [← hvalue]
    exact wrap64_of_lt hg.value_nonneg (Int.lt_of_le_of_lt hnext hg.stop_lt)
  rw [generateLoop]
  congr 1
  funext p
  rw [hwrap, if_neg (by omega), if_neg (by omega)]

theorem generateLoop_eq_foldlM {k : Nat} (hk : k ≤ g.range.last) :
    generateLoop texts g (fuel + k) g.range.start p =
      ((List.range k).map g.range.value).foldlM (generateRecord texts g) p >>=
        generateLoop texts g fuel (g.range.value k) := by
  induction k generalizing fuel with
  | zero => rw [GenerateRange.value_zero]; rfl
  | succ k ih =>
    rw [Nat.add_comm k, ← Nat.add_assoc, ih (by omega), Nat.add_comm 1, List.range_succ, List.map_append,
      List.foldlM_append, bind_assoc]
    congr 1
    funext p
    rw [generateLoop_of_lt hg (by omega), List.map_singleton, List.foldlM_cons, bind_assoc]
    rfl

theorem generateLoop_last : generateLoop texts g (fuel + 1 + g.range.last) g.range.start p =
    ((List.range (g.range.last + 1)).map g.range.value).foldlM (generateRecord texts g) p >>= fun p =>
      if g.range.value g.range.last = g.range.stop then .ok p
      else if wrap64 (g.range.value (g.range.last + 1)) > g.range.stop then .ok p
      else generateLoop texts g fuel (wrap64 (g.range.value (g.range.last + 1))) p := by
  rw [generateLoop_eq_foldlM hg (Nat.le_refl _), List.range_succ, List.map_append, List.foldlM_append, bind_assoc,
    GenerateRange.value_succ]
  congr 1
  funext p
  rw [generateLoop, List.map_singleton, List.foldlM_cons, bind_assoc]
  rfl

theorem generateLoop_of_exact (hexact : g.range.Exact) : generateLoop texts g (2 ^ 64) g.range.start p =
    g.range.values.foldlM (generateRecord texts g) p := by
  have hlast := hg.last_lt
  have hcount : g.range.iterations.toNat = g.range.last + 1 := by
    rw [hg.iterations_eq, wrap64_of_lt (by omega) (by have := hexact.1; omega)]
    omega
  have hstop := hg.stop_lt_value
  rw [show 2 ^ 64 = 2 ^ 64 - g.range.last - 1 + 1 + g.range.last by omega, generateLoop_last hg, GenerateRange.values,
    hcount]
  refine (congrArg _ (funext fun p => ?_)).trans (bind_pure _)
  rcases hexact.2 with heq | hlt
  · exact if_pos heq
  · rw [wrap64_of_lt hg.value_nonneg hlt, if_pos hstop, ite_self]
    rfl

theorem exact_of_generateLoop (hstep : g.range.step < 2 ^ 63)
    (hvalues : g.range.values.foldlM (generateRecord texts g) p = .ok q)
    (h : generateLoop texts g (2 ^ 64) g.range.start p = .ok q) : g.range.Exact := by
  have hlast := hg.last_lt
  by_cases hfits : g.range.last + 1 < 2 ^ 63
  · refine ⟨hfits, ?_⟩
    by_contra! hnot
    have hcount : g.range.iterations.toNat = g.range.last + 1 := by
      rw [hg.iterations_eq, wrap64_of_lt (by omega) (by omega)]
      omega
    rw [GenerateRange.values, hcount] at hvalues
    have hwraps : wrap64 (g.range.value (g.range.last + 1)) < 0 := by
      refine wrap64_neg hnot.2 ?_
      have hle := hg.value_last_le
      have hstop := hg.stop_lt
      rw [GenerateRange.value_succ]
      omega
    have hnonneg := Int.le_trans hg.start_nonneg hg.start_le
    rw [show 2 ^ 64 = 2 ^ 64 - g.range.last - 1 + 1 + g.range.last by omega, generateLoop_last hg] at h
    obtain ⟨p', hp', h⟩ := bind_ok h
    cases hvalues.symm.trans hp'
    rw [if_neg hnot.1, if_neg (by omega)] at h
    exact absurd (generateLoop_length_lt h) (Nat.lt_irrefl _)
  · have hcount : g.range.iterations.toNat = 0 := by
      have hwraps := @wrap64_neg (g.range.last + 1) (by omega) (by omega)
      rw [hg.iterations_eq]
      omega
    rw [GenerateRange.values, hcount] at hvalues
    cases hvalues
    exact absurd (generateLoop_length_lt h) (Nat.lt_irrefl _)

end Loop

/-- For an exact range the result is that of the counted values, one record for each, also if one of them fails; for no
other range is it, if they all succeed. No counted value exceeds the stop. -/
theorem handleGenerate_exact_iff {texts : Texts} {maxIterations : Int} {p : Parser}
    {first rng lhs r r' f : FieldTok} {more rhs : List FieldTok} {range : GenerateRange} {ttl : Int} {class_ : RRClass}
    {t : RRType} (hrange : parseGenerateRange rng.text = .ok range) (hcap : range.iterations ≤ maxIterations)
    (hscan : scanTTLClass (r :: r' :: more) p.defaultTTL RRClass.classIN = .ok (f :: rhs, ttl, class_))
    (htype : RRType.parse f.text = some t) (httl : 0 ≤ ttl) :
    (range.Exact → handleGenerate texts maxIterations p (first :: rng :: lhs :: r :: r' :: more) =
      range.values.foldlM (generateRecord texts ⟨first.line, range, lhs.text, ttl, class_, t, rhs⟩) p) ∧
    (∀ p', range.values.foldlM (generateRecord texts ⟨first.line, range, lhs.text, ttl, class_, t, rhs⟩) p = .ok p' →
      (handleGenerate texts maxIterations p (first :: rng :: lhs :: r :: r' :: more) = .ok p' ∧
        p'.records.length = p.records.length + range.iterations ↔ range.Exact)) ∧
    ∀ v ∈ range.values, v ≤ range.stop := by
  obtain ⟨hvalid, hstep⟩ := valid_of_parseGenerateRange hrange
  have hloop : handleGenerate texts maxIterations p (first :: rng :: lhs :: r :: r' :: more) =
      generateLoop texts ⟨first.line, range, lhs.text, ttl, class_, t, rhs⟩ (2 ^ 64) range.start p := by
    have hcap' : ¬range.iterations > maxIterations := by omega
    have httl' : ¬ttl < 0 := by omega
    rw [handleGenerate, hrange]
    simp only [fieldErr, Except.mapError, bind, Except.bind, if_neg hcap', handleGenerateRest, hscan, htype, if_neg httl']
  rw [hloop]
  have hexact := @generateLoop_of_exact texts ⟨first.line, range, lhs.text, ttl, class_, t, rhs⟩ p hvalid
  refine ⟨hexact, fun p' hvalues => ⟨fun h => exact_of_generateLoop hvalid hstep hvalues h.1, fun h => ?_⟩, ?_⟩
  · refine ⟨(hexact h).trans hvalues, ?_⟩
    have hlast := h.1
    rw [foldlM_generateRecord_length hvalues, GenerateRange.values, List.length_map, List.length_range,
      hvalid.iterations_eq, wrap64_of_lt (by omega) (by omega)]
    omega
  · intro v hv
    obtain ⟨i, hi, rfl⟩ := List.mem_map.mp hv
    refine Int.le_trans (hvalid.value_mono (Nat.le_of_lt_succ ?_)) hvalid.value_last_le
    have hlast := hvalid.last_lt
    have hlt := List.mem_range.mp hi
    rw [hvalid.iterations_eq] at hlt
    by_cases hfits : range.last + 1 < 2 ^ 63
    · rw [wrap64_of_lt (by omega) (by omega)] at hlt
      omega
    · have hwraps := @wrap64_neg (range.last + 1) (by omega) (by omega)
      omega

namespace GenerateSample

def tok (s : String) : FieldTok := ⟨ascii s, false, 1⟩

def texts : Texts := ⟨some, some⟩

def parser : Parser := ⟨Name.Short.a, 3600, .zero, []⟩

def owners (range : String) : Option (List Name) :=
  (handleGenerate texts 65536 parser [tok "$GENERATE", tok range, tok "b", tok "NS", tok "b.a."]).toOption.map fun p =>
    p.records.map Record.name

end GenerateSample

open GenerateSample in
theorem handleGenerate_exact_sample : (⟨1, 4, 2⟩ : GenerateRange).values = [1, 3] ∧
    handleGenerate texts 65536 parser [tok "$GENERATE", tok "1-4/2", tok "b", tok "NS", tok "b.a."] =
      (⟨1, 4, 2⟩ : GenerateRange).values.foldlM
        (generateRecord texts ⟨1, ⟨1, 4, 2⟩, ascii "b", 3600, RRClass.classIN, .ns, [tok "b.a."]⟩) parser :=
  ⟨by decide +kernel, (handleGenerate_exact_iff (f := tok "NS") (by decide +kernel) (by decide +kernel) (by decide +kernel)
    (by decide +kernel) (by decide +kernel)).1 (by decide +kernel)⟩

open GenerateSample in
/-- One value is counted, and the loop appends eight records. -/
theorem handleGenerate_not_exact :
    (parseGenerateRange (ascii "6917529027641081855-6917529027641081856/2305843009213693953")).toOption.map
      GenerateRange.iterations = some 1 ∧
    owners "6917529027641081855-6917529027641081856/2305843009213693953" = some (List.replicate 8 Name.Short.ba) := by
  decide +kernel

end Acidns.Zonefile
